import LSMIO.CollectivePhases

namespace LSMIO

namespace Collective

namespace State

variable {σ : Type*} {n : Nat}

/-- All messages are consumed, the server loop is left and everyone is past the barrier. -/
structure Completed (s : State σ n) : Prop where
  toServer : ∀ i, (s.links i).toServer = [] ∧ (s.links i).recvBuf = none
  toClient : ∀ i, (s.links i).toClient = []
  exited : s.server = .exited
  passed : s.main = .passed ∧ ∀ i, (s.links i).client = .passed

end State

/-- The work a client and its messages still make. -/
def ClientPc.weight : ClientPc → Nat
  | running todo => 5 * todo.length + 5
  | waiting _ todo => 5 * todo.length + 5
  | closing => 0
  | passed => 0

def Link.weight (l : Link) : Nat :=
  l.client.weight + 4 * l.toServer.length + 3 * l.recvBuf.toList.length + l.toClient.length

def ServerPc.weight {n : Nat} : ServerPc n → Nat
  | testing => 1
  | receiving _ => 0
  | handling _ => 0
  | exited => 0

def MainPc.weight : MainPc → Nat
  | running todo => todo.length + 2
  | closing => 1
  | passed => 0

namespace State

variable {σ : Type*} {n : Nat}

/-- What is left to do; every step makes it less. -/
def weight (s : State σ n) : Nat := ∑ i, (s.links i).weight + s.server.weight + s.main.weight

theorem weight_setLink (s : State σ n) (i : Fin n) (l : Link) :
    (s.setLink i l).weight + (s.links i).weight = s.weight + l.weight := by
  have total : ∀ links : Fin n → Link,
      ∑ j, (links j).weight = (links i).weight + ∑ j ∈ Finset.univ.erase i, (links j).weight :=
    fun links => (Finset.add_sum_erase _ (fun j => (links j).weight) (Finset.mem_univ i)).symm
  have others : ∑ j ∈ Finset.univ.erase i, ((s.setLink i l).links j).weight =
      ∑ j ∈ Finset.univ.erase i, (s.links j).weight :=
    Finset.sum_congr rfl fun j other => by rw [links_setLink_of_ne (Finset.ne_of_mem_erase other)]
  have self := links_setLink_self s i l
  rw [weight, weight, total, others, total s.links, self, server_setLink, main_setLink]
  omega

theorem weight_of_links (s s' : State σ n) (links : s'.links = s.links) (main : s'.main = s.main) :
    s'.weight + s.server.weight = s.weight + s'.server.weight := by
  rw [weight, weight, links, main]
  omega

variable {store : LSMIOStore σ} {alwaysFlush : Bool}

theorem weight_handleMessage (s : State σ n) {i : Fin n} {buf : Bytes} (turn : s.server = .handling i)
    (held : (s.links i).recvBuf = some buf) (msg : Message) :
    (s.handleMessage store alwaysFlush i msg).weight < s.weight := by
  have link : ∃ l, (s.handleMessage store alwaysFlush i msg).links = (s.setLink i l).links ∧
      l.weight + 2 ≤ (s.links i).weight := by
    refine ⟨(s.handleMessage store alwaysFlush i msg).links i, ?_, ?_⟩
    · funext j
      by_cases here : j = i
      · rw [here, links_setLink_self]
      · rw [links_setLink_of_ne here, links_handleMessage_of_ne _ _ _ _ _ here]
    · rw [links_handleMessage_self]
      split
      · simp [Link.markEol, Link.weight, held]
        omega
      · generalize ((manager n).handleCommand store alwaysFlush s.store (rank i) msg).2 = back
        cases back <;> simp [Link.answer, Link.weight, held] <;> omega
  obtain ⟨l, same, less⟩ := link
  have total := s.weight_setLink i l
  have server := weight_of_links (s.setLink i l) (s.handleMessage store alwaysFlush i msg) same rfl
  have before : (s.setLink i l).server.weight = 0 := by
    rw [server_setLink, turn]
    rfl
  have after : (s.handleMessage store alwaysFlush i msg).server.weight ≤ 1 := by
    rw [server_handleMessage, ServerPc.afterHandle]
    split <;> simp [ServerPc.weight]
  omega

variable (store alwaysFlush) in
theorem weight_next [NeZero n] (s : State σ n) (e : Event n) (s' : State σ n) (taken : Next store alwaysFlush s e s') :
    s'.weight < s.weight := by
  cases effect_of_next taken with
  | @send i c todo ready =>
    have total := s.weight_setLink i ((s.links i).send c todo)
    have less : ((s.links i).send c todo).weight < (s.links i).weight := by
      cases waits : c.waits <;> simp [Link.send, Link.weight, ClientPc.weight, ready, waits] <;> omega
    omega
  | @eol i ready =>
    have total := s.weight_setLink i (s.links i).sendEol
    have less : (s.links i).sendEol.weight < (s.links i).weight := by
      simp [Link.sendEol, Link.weight, ClientPc.weight, ready]
      omega
    omega
  | @reply i c todo buf rest msg blocked arrived reads =>
    have total := s.weight_setLink i ((s.links i).takeReply todo rest)
    have less : ((s.links i).takeReply todo rest).weight < (s.links i).weight := by
      simp [Link.takeReply, Link.weight, ClientPc.weight, blocked, arrived]
    omega
  | loop test =>
    have here : s.server.weight = 1 := by rw [test]; rfl
    simp only [weight, here]
    split <;> simp [ServerPc.weight]
  | @recv i buf rest probing arrived =>
    have total := s.weight_setLink i ((s.links i).fill buf rest)
    have less : ((s.links i).fill buf rest).weight < (s.links i).weight := by
      simp [Link.fill, Link.weight, arrived]
      omega
    have server := weight_of_links (s.setLink i ((s.links i).fill buf rest))
      { s.setLink i ((s.links i).fill buf rest) with server := .afterRecv i } rfl rfl
    have after : (ServerPc.afterRecv i).weight = 0 := by
      rw [ServerPc.afterRecv]
      split <;> rfl
    simp only [after] at server ⊢
    omega
  | handle turn held reads => exact s.weight_handleMessage turn held _
  | own ready => simp [weight, ready, MainPc.weight]
  | join finished exited => simp [weight, finished, MainPc.weight]
  | barrier entered clients =>
    have same : ∀ i, ({ s.links i with client := .passed } : Link).weight = (s.links i).weight := fun i => by
      simp [Link.weight, clients i, ClientPc.weight]
    simp [weight, same, entered, MainPc.weight]

end State

namespace Link.Tracks

variable {script sentNow : List Command} {handled flight readNow takenNow back due : List Message} {l : Link}

/-- With all messages handled, a reply is on its way exactly to a client that waits. -/
theorem back_length (tracks : l.Tracks script sentNow handled flight readNow takenNow back due) (done : flight = []) :
    back.length = l.client.awaited := by
  have whole := tracks.outgoing
  rw [done, List.append_nil] at whole
  have operations :
      ((sentNow.map Command.message).filter Message.answered).length = (sentNow.filter Command.waits).length := by
    rw [List.filter_map, List.length_map]
    congr 1
    exact List.filter_congr fun c _ => c.waits_eq.symm
  have silent : (l.client.last.filter Message.answered).length = 0 := by
    cases l.client <;> simp [Message.answered] <;> decide +kernel
  have answered := tracks.answered
  have awaited := tracks.awaited
  rw [whole, List.filter_append, List.length_append, operations, silent, ← tracks.replies,
    List.length_append] at answered
  omega

/-- What the server handled from a client that sent its end of line, when nothing is in flight. -/
theorem handled_of_eol (tracks : l.Tracks script sentNow handled flight readNow takenNow back due)
    (finished : l.eol = true) : handled = script.map Command.message ++ [eolMessage] := by
  obtain ⟨closed, done⟩ := tracks.eol_iff.mp finished
  have none_left : l.client.todo = [] := by
    cases pc : l.client <;> simp [pc] at closed ⊢
  have whole := tracks.outgoing
  have issued := tracks.script
  rw [none_left, List.append_nil] at issued
  rw [done, List.append_nil, closed, issued] at whole
  exact whole

theorem handled_length (tracks : l.Tracks script sentNow handled flight readNow takenNow back due)
    (finished : l.eol = true) : readNow.length = script.length + 1 := by
  rw [← tracks.readAs.length_eq, tracks.handled_of_eol finished]
  simp

/-- A client of which the server read one message more than it has operations sent its end of line. -/
theorem eol_of_length (tracks : l.Tracks script sentNow handled flight readNow takenNow back due)
    (all : readNow.length = script.length + 1) : l.eol = true := by
  have whole := congrArg List.length tracks.outgoing
  have issued := congrArg List.length tracks.script
  rw [List.length_append, List.length_append, List.length_map, tracks.readAs.length_eq] at whole
  rw [List.length_append] at issued
  refine tracks.eol_iff.mpr ?_
  cases pc : l.client with
  | running todo =>
    simp only [pc, ClientPc.last, List.length_nil] at whole
    omega
  | waiting c todo =>
    simp only [pc, ClientPc.last, List.length_nil] at whole
    omega
  | closing =>
    simp only [pc, ClientPc.last, List.length_singleton] at whole
    exact ⟨rfl, List.length_eq_zero_iff.mp (by omega)⟩
  | passed =>
    simp only [pc, ClientPc.last, List.length_singleton] at whole
    exact ⟨rfl, List.length_eq_zero_iff.mp (by omega)⟩

/-- The messages of operations with framed keys can be read. -/
theorem readable (tracks : l.Tracks script sentNow handled flight readNow takenNow back due)
    (framed : ∀ c ∈ script, Framed c.message.key) {buf : Bytes} (held : l.recvBuf = some buf) :
    ∃ msg, received buf = some msg := by
  have channel := tracks.inFlight
  rw [held] at channel
  cases flight with
  | nil => cases channel
  | cons m rest =>
    obtain ⟨rfl, -⟩ := List.cons.inj channel
    have member : m ∈ sentNow.map Command.message ++ l.client.last := tracks.outgoing ▸ by simp
    rw [← Option.isSome_iff_exists]
    rcases List.mem_append.mp member with operation | last
    · obtain ⟨c, issued, rfl⟩ := List.mem_map.mp operation
      have inScript : c ∈ script := tracks.script ▸ List.mem_append_left _ issued
      exact (isSome_deSerializeCmd c.plain_message_command c.message.key c.message.value).mpr (framed c inScript)
    · have eol : m = eolMessage := by
        cases pc : l.client <;> simp [pc] at last <;> exact last
      rw [eol]
      decide +kernel

/-- Every message that was handled could be read. -/
theorem framed_of_handled (tracks : l.Tracks script sentNow handled flight readNow takenNow back due)
    (finished : l.eol = true) : ∀ c ∈ script, Framed c.message.key := by
  intro c member
  have wasHandled : c.message ∈ handled :=
    tracks.handled_of_eol finished ▸ List.mem_append_left _ (List.mem_map_of_mem member)
  obtain ⟨k, bound, at_⟩ := List.getElem_of_mem wasHandled
  have read := tracks.readAs.get bound (tracks.readAs.length_eq ▸ bound)
  rw [← isSome_deSerializeCmd c.plain_message_command c.message.key c.message.value, Option.isSome_iff_exists]
  rw [List.get_eq_getElem, at_] at read
  exact ⟨_, read⟩

end Link.Tracks

section Progress

variable {σ : Type*} {n : Nat} [NeZero n] {store : LSMIOStore σ} {alwaysFlush : Bool} {initial : σ}
variable {scripts : Fin n → List Command} {own : List (Command × Bool)} {trace : List (Event n)} {s : State σ n}

/-- A server that waits for a message of a client waits for one that will never be sent. -/
theorem eol_of_stuck (run : Run (State.Next store alwaysFlush) (State.init scripts own initial) trace s)
    (stuck : Stuck (State.Next store alwaysFlush) s) {i : Fin n} (probing : s.server = .receiving i) :
    (s.links i).eol = true := by
  obtain ⟨handled, flight, back, tracks⟩ := tracks_of_run run i
  have empty : (s.links i).recvBuf = none := by
    have holds := (Phases.of_run run).recvBuf i
    rw [probing, ServerPc.Holds, iff_false_intro (lt_irrefl i), iff_false, Bool.not_eq_true,
      Option.isSome_eq_false_iff, Option.isNone_iff_eq_none] at holds
    exact holds
  have nothing : (s.links i).toServer = [] := by
    cases arrived : (s.links i).toServer with
    | nil => rfl
    | cons buf rest => exact absurd (State.Effect.recv probing arrived).next (stuck _ _)
  have done : flight = [] := by
    have channel := tracks.inFlight
    rw [empty, nothing] at channel
    exact List.map_eq_nil_iff.mp channel.symm
  refine tracks.eol_iff.mpr ⟨?_, done⟩
  cases pc : (s.links i).client with
  | running todo =>
    cases todo with
    | nil => exact absurd (State.Effect.eol pc).next (stuck _ _)
    | cons c todo => exact absurd (State.Effect.send pc).next (stuck _ _)
  | waiting c todo =>
    have one := tracks.back_length done
    rw [pc, ClientPc.awaited, List.length_eq_one_iff] at one
    obtain ⟨m, rfl⟩ := one
    obtain ⟨command, key⟩ := tracks.plain m (List.mem_singleton_self m)
    have arrived : (s.links i).toClient = m.serialize :: [] := tracks.toClient
    exact absurd (State.Effect.reply pc arrived (Message.received_serialize command key)).next (stuck _ _)
  | closing => rfl
  | passed => rfl

/-- With scripts of one length and messages that can be read, the protocol stops only where it is completed. -/
theorem completed_of_stuck (run : Run (State.Next store alwaysFlush) (State.init scripts own initial) trace s)
    (equal : ∀ i j, (scripts i).length = (scripts j).length) (framed : ∀ i, ∀ c ∈ scripts i, Framed c.message.key)
    (stuck : Stuck (State.Next store alwaysFlush) s) : s.Completed := by
  have phases := Phases.of_run run
  have exited : s.server = .exited := by
    cases pc : s.server with
    | testing => exact absurd (State.Effect.loop pc).next (stuck _ _)
    | receiving i =>
      -- All clients sent as many messages as client `i`, so they all have sent their end of line.
      obtain ⟨_, _, _, tracks⟩ := tracks_of_run run i
      have count := tracks.handled_length (eol_of_stuck run stuck pc)
      obtain ⟨j, still⟩ := phases.unfinished i pc
      obtain ⟨_, _, _, tracks'⟩ := tracks_of_run run j
      have round := rounds_of_run run i
      have round' := rounds_of_run run j
      rw [pc] at round round'
      have lengths := equal i j
      have all : (read j trace).length = (scripts j).length + 1 := by
        simp only [ServerPc.turn] at round round'
        omega
      rw [tracks'.eol_of_length all] at still
      cases still
    | handling i =>
      obtain ⟨_, _, _, tracks⟩ := tracks_of_run run i
      have holds := phases.recvBuf i
      rw [pc, ServerPc.Holds, iff_true_intro (le_refl i), iff_true] at holds
      obtain ⟨buf, held⟩ := Option.isSome_iff_exists.mp holds
      obtain ⟨msg, reads⟩ := tracks.readable (framed i) held
      exact absurd (State.Effect.handle pc held reads).next (stuck _ _)
    | exited => rfl
  have closed : ∀ i, (s.links i).client = .closing ∨ (s.links i).client = .passed := by
    intro i
    obtain ⟨_, _, _, tracks⟩ := tracks_of_run run i
    have last := (tracks.eol_iff.mp (phases.finished exited i)).1
    cases pc : (s.links i).client <;> simp [pc] at last ⊢
  have passed : s.main = .passed := by
    cases pc : s.main with
    | running todo =>
      cases todo with
      | nil => exact absurd (State.Effect.join pc exited).next (stuck _ _)
      | cons op todo => exact absurd (State.Effect.own pc).next (stuck _ _)
    | closing =>
      have entered : ∀ i, (s.links i).client = .closing := fun i =>
        (closed i).resolve_right fun passed => by
          rw [phases.passed i, pc] at passed
          cases passed
      exact absurd (State.Effect.barrier pc entered).next (stuck _ _)
    | passed => rfl
  have clients := fun i => (phases.passed i).mpr passed
  refine ⟨fun i => ?_, fun i => ?_, exited, passed, clients⟩
  · obtain ⟨_, _, _, tracks⟩ := tracks_of_run run i
    have channel := tracks.inFlight
    rw [(tracks.eol_iff.mp (phases.finished exited i)).2, List.map_nil, List.append_eq_nil_iff] at channel
    exact ⟨channel.2, by simpa using channel.1⟩
  · obtain ⟨_, _, _, tracks⟩ := tracks_of_run run i
    have none_left := tracks.back_length (tracks.eol_iff.mp (phases.finished exited i)).2
    rw [clients i, ClientPc.awaited, List.length_eq_zero_iff] at none_left
    rw [tracks.toClient, none_left, List.map_nil]

/-- A protocol that is completed made as many rounds as each client sent messages, and read them all. -/
theorem script_of_completed (run : Run (State.Next store alwaysFlush) (State.init scripts own initial) trace s)
    (completed : s.Completed) (i : Fin n) :
    (scripts i).length + 1 = s.loopCounter ∧ ∀ c ∈ scripts i, Framed c.message.key := by
  obtain ⟨_, _, _, tracks⟩ := tracks_of_run run i
  have finished := (Phases.of_run run).finished completed.exited i
  have round := rounds_of_run run i
  rw [completed.exited, tracks.handled_length finished] at round
  exact ⟨round, tracks.framed_of_handled finished⟩

end Progress

/-- The protocol never deadlocks exactly when all clients issue the same number
of operations, none with a key in which a NUL comes before the first separator. -/
theorem completes_iff {σ : Type*} {n : Nat} [NeZero n] (store : LSMIOStore σ) (alwaysFlush : Bool)
    (scripts : Fin n → List Command) (own : List (Command × Bool)) (initial : σ) :
    (∀ trace s, Run (State.Next store alwaysFlush) (State.init scripts own initial) trace s →
        Stuck (State.Next store alwaysFlush) s → s.Completed) ↔
      (∀ i j, (scripts i).length = (scripts j).length) ∧ ∀ i, ∀ c ∈ scripts i, Framed c.message.key := by
  constructor
  · intro completes
    obtain ⟨trace, s, run, stuck⟩ := Run.exists_stuck State.weight (State.weight_next store alwaysFlush)
      (State.init scripts own initial)
    have completed := completes trace s run stuck
    refine ⟨fun i j => ?_, fun i => (script_of_completed run completed i).2⟩
    have here := (script_of_completed run completed i).1
    have there := (script_of_completed run completed j).1
    omega
  · rintro ⟨equal, framed⟩ trace s run stuck
    exact completed_of_stuck run equal framed stuck

theorem completes_lockstep : ∃ (trace : List (Event 2)) (s : State LSMIOStore.StoreMap 2),
    Run (State.Next .ofMap true)
      (State.init (fun _ => [.put [107] [7], .get [107]]) [(.writeBarrier, true)] ∅) trace s ∧
      s.Completed := by
  obtain ⟨trace, s, run, stuck⟩ := Run.exists_stuck State.weight (State.weight_next .ofMap true)
    (State.init (fun _ : Fin 2 => [.put [107] [7], .get [107]]) [(.writeBarrier, true)] ∅)
  exact ⟨trace, s, run, (completes_iff .ofMap true _ _ ∅).mpr ⟨by decide, by decide⟩ trace s run stuck⟩

/-- One client closes at once and another puts a key first: the server waits
in its second round for a message of the first client that never comes. -/
theorem not_completes : ¬ ∀ (n : Nat) [NeZero n] (scripts : Fin n → List Command) (own : List (Command × Bool))
    (trace : List (Event n)) (s : State LSMIOStore.StoreMap n),
      Run (State.Next .ofMap true) (State.init scripts own ∅) trace s → Stuck (State.Next .ofMap true) s →
        s.Completed := by
  intro completes
  obtain ⟨trace, s, run, stuck⟩ := Run.exists_stuck State.weight (State.weight_next .ofMap true)
    (State.init (fun i : Fin 2 => if i = 0 then [] else [.put [107] [7]]) [] ∅)
  have completed := completes 2 _ [] trace s run stuck
  have first := (script_of_completed run completed 0).1
  have second := (script_of_completed run completed 1).1
  simp only [if_true, List.length_nil] at first
  simp only [one_ne_zero, if_false, List.length_singleton] at second
  omega

end Collective

end LSMIO
