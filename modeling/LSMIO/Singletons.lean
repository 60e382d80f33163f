import LSMIO.Library.Runs

namespace LSMIO

/-- The statics around the one instance of `LSMIOManager`, or of the manager of `LSMIOStream`. -/
structure Singleton (μ : Type*) where
  lm : Option μ
  initialized : Bool
  initializing : Bool
  cleaning : Bool

namespace Singleton

variable {μ ρ : Type*}

def start : Singleton μ := ⟨none, false, false, false⟩

/-- `initialize` of the two classes, which differ in what they return: `none` is
a call that throws. `constructed` is what the constructor gives, if it returns. -/
def initializeLm (refused : ρ) (completed : Option μ → ρ) (s : Singleton μ) (constructed : Option μ) :
    Option ρ × Singleton μ :=
  if s.initialized then (some refused, s)
  else if s.initializing then (some refused, s)
  else
    let s := { s with initializing := true }
    match constructed with
    | none => (none, s)
    | some lm =>
      let s := { s with lm := some lm, initializing := false, initialized := true }
      (some (completed s.lm), s)

/-- `cleanup` of the two classes. -/
def cleanup (s : Singleton μ) : Bool × Singleton μ :=
  if !s.initialized || s.initializing then (false, s)
  else if s.cleaning then (false, s)
  else
    let s := { s with cleaning := true, lm := none }
    (true, { s with cleaning := false, initialized := false })

/-- `initialize` gets past its two tests, to the constructor. -/
def Idle (s : Singleton μ) : Prop := s.initialized = false ∧ s.initializing = false

instance : DecidablePred (@Idle μ) := fun s =>
  inferInstanceAs (Decidable (s.initialized = false ∧ s.initializing = false))

/-- What a call that returns can do to the statics. -/
inductive Move (s : Singleton μ) : Singleton μ → Prop
  | same : Move s s
  | constructed (lm : μ) : Move s ⟨some lm, true, false, s.cleaning⟩
  | cleaned : Move s ⟨none, false, s.initializing, false⟩

end Singleton

/-- The calls of a class on its statics. -/
structure SingletonCalls (μ κ ρ : Type*) where
  call : Singleton μ → κ → Option ρ × Singleton μ
  initializeLm : Option μ → κ
  move : ∀ s c, (call s c).1 ≠ none → s.Move (call s c).2
  threw_iff : ∀ s c, (call s c).1 = none ↔ c = initializeLm none ∧ s.Idle
  constructs : ∀ s lm, s.Idle → (call s (initializeLm (some lm))).2.lm = some lm
  throws : ∀ s, s.Idle → (call s (initializeLm none)).2 = { s with initializing := true }

namespace Singleton

variable {μ ρ : Type*} {refused : ρ} {completed : Option μ → ρ}

theorem move_initializeLm {s : Singleton μ} {constructed : Option μ}
    (returned : (s.initializeLm refused completed constructed).1 ≠ none) :
    s.Move (s.initializeLm refused completed constructed).2 := by
  unfold initializeLm at returned ⊢
  split
  next => exact .same
  next notInitialized =>
    rw [if_neg notInitialized] at returned
    split
    next => exact .same
    next notInitializing =>
      rw [if_neg notInitializing] at returned
      cases constructed with
      | none => exact absurd rfl returned
      | some lm => exact .constructed lm

theorem initializeLm_threw_iff (s : Singleton μ) (constructed : Option μ) :
    (s.initializeLm refused completed constructed).1 = none ↔ constructed = none ∧ s.Idle := by
  unfold initializeLm Idle
  cases s.initialized with
  | true => simp
  | false =>
    cases s.initializing with
    | true => simp
    | false => cases constructed <;> simp

theorem initializeLm_constructs {s : Singleton μ} (idle : s.Idle) (lm : μ) :
    (s.initializeLm refused completed (some lm)).2.lm = some lm := by
  simp [initializeLm, idle.1, idle.2]

theorem initializeLm_throws {s : Singleton μ} (idle : s.Idle) :
    (s.initializeLm refused completed none).2 = { s with initializing := true } := by
  simp [initializeLm, idle.1, idle.2]

theorem move_cleanup (s : Singleton μ) : s.Move s.cleanup.2 := by
  unfold cleanup
  split
  · exact .same
  · split
    · exact .same
    · exact .cleaned

end Singleton

namespace LSMIOManager

/-- The calls on the instance of the manager, with the outcome of the constructor. -/
inductive SingletonCall (μ : Type*)
  | initializeLm (constructed : Option μ)
  | getManager
  | cleanup

/-- What such a call returns: a pointer or a flag. -/
inductive SingletonResult (μ : Type*)
  | manager (lm : Option μ)
  | bool (b : Bool)

variable {μ : Type*}

/-- A refusal returns a null pointer. -/
def initializeLm (s : Singleton μ) (constructed : Option μ) : Option (Option μ) × Singleton μ :=
  s.initializeLm none (fun lm => lm) constructed

def getManager (s : Singleton μ) : Option μ :=
  if !s.initialized || s.initializing then none
  else if s.cleaning then none
  else s.lm

def cleanup (s : Singleton μ) : Bool × Singleton μ := s.cleanup

def call (s : Singleton μ) : SingletonCall μ → Option (SingletonResult μ) × Singleton μ
  | .initializeLm constructed => ((initializeLm s constructed).1.map .manager, (initializeLm s constructed).2)
  | .getManager => (some (.manager (getManager s)), s)
  | .cleanup => (some (.bool (cleanup s).1), (cleanup s).2)

def singletonCalls : SingletonCalls μ (SingletonCall μ) (SingletonResult μ) where
  call := call
  initializeLm := .initializeLm
  move s c returned := by
    cases c with
    | initializeLm constructed =>
      exact Singleton.move_initializeLm fun threw => returned (by rw [call, initializeLm, threw]; rfl)
    | getManager => exact .same
    | cleanup => exact s.move_cleanup
  threw_iff s c := by
    cases c with
    | initializeLm constructed => simpa [call, initializeLm] using s.initializeLm_threw_iff constructed
    | getManager | cleanup => simp [call]
  constructs _ lm idle := Singleton.initializeLm_constructs idle lm
  throws s idle := by
    rw [call, initializeLm, Singleton.initializeLm_throws idle]

end LSMIOManager

namespace LSMIOStream

inductive SingletonCall (μ : Type*)
  | initializeLm (constructed : Option μ)
  | cleanup

variable {μ : Type*}

/-- A refusal returns `false`. -/
def initializeLm (s : Singleton μ) (constructed : Option μ) : Option Bool × Singleton μ :=
  s.initializeLm false (fun _ => true) constructed

def cleanup (s : Singleton μ) : Bool × Singleton μ := s.cleanup

def call (s : Singleton μ) : SingletonCall μ → Option Bool × Singleton μ
  | .initializeLm constructed => initializeLm s constructed
  | .cleanup => (some (cleanup s).1, (cleanup s).2)

def singletonCalls : SingletonCalls μ (SingletonCall μ) Bool where
  call := call
  initializeLm := .initializeLm
  move s c returned := by
    cases c with
    | initializeLm constructed => exact Singleton.move_initializeLm returned
    | cleanup => exact s.move_cleanup
  threw_iff s c := by
    cases c with
    | initializeLm constructed => simpa [call, initializeLm] using s.initializeLm_threw_iff constructed
    | cleanup => simp [call]
  constructs _ lm idle := Singleton.initializeLm_constructs idle lm
  throws s idle := by
    rw [call, initializeLm, Singleton.initializeLm_throws idle]

end LSMIOStream

namespace SingletonCalls

variable {μ κ ρ : Type*} (api : SingletonCalls μ κ ρ)

/-- The statics after a sequence of calls. -/
def after (calls : List κ) : Singleton μ := calls.foldl (fun s c => (api.call s c).2) .start

/-- The next `initialize` attempts the construction: a constructor that returns puts its manager in place. -/
def Attempts (s : Singleton μ) : Prop := ∀ lm, (api.call s (api.initializeLm (some lm))).2.lm = some lm

/-- The singleton stays usable throughout a sequence of calls: a call that
throws leaves the statics as they were; between calls there is a manager exactly
when the initialized flag is set; and without one the next `initialize` attempts a construction. -/
structure Usable (calls : List κ) : Prop where
  restored : ∀ front c back, calls = front ++ c :: back → (api.call (api.after front) c).1 = none →
    (api.call (api.after front) c).2 = api.after front
  pointer : ∀ front back, calls = front ++ back → ((api.after front).lm.isSome ↔ (api.after front).initialized = true)
  retries : ∀ front back, calls = front ++ back → (api.after front).lm = none → api.Attempts (api.after front)

/-- No constructor that the sequence gets to throws. -/
def NoFailure (calls : List κ) : Prop :=
  ∀ front back, calls = front ++ api.initializeLm none :: back → ¬ (api.after front).Idle

variable {api}

theorem after_snoc (calls : List κ) (c : κ) : api.after (calls ++ [c]) = (api.call (api.after calls) c).2 := by
  rw [after, List.foldl_append]
  rfl

/-- What holds between calls until a constructor throws. -/
structure Settled (s : Singleton μ) : Prop where
  initializing : s.initializing = false
  pointer : s.lm.isSome ↔ s.initialized = true

theorem Settled.after {calls : List κ} (fine : api.NoFailure calls) : Settled (api.after calls) := by
  induction calls using List.reverseRecOn with
  | nil => exact ⟨rfl, by simp [SingletonCalls.after, Singleton.start]⟩
  | append_singleton calls c ih =>
    have settled := ih fun front back split => fine front (back ++ [c]) (by simp [split])
    have returned : (api.call (api.after calls) c).1 ≠ none := by
      intro threw
      obtain ⟨rfl, idle⟩ := (api.threw_iff _ _).mp threw
      exact fine calls [] rfl idle
    have move := api.move _ _ returned
    rw [after_snoc]
    generalize (api.call (api.after calls) c).2 = s' at move
    cases move with
    | same => exact settled
    | constructed lm => exact ⟨rfl, by simp⟩
    | cleaned => exact ⟨settled.initializing, by simp⟩

/-- The singleton stays usable in exactly the sequences in which no construction fails:
a constructor that throws leaves the initializing flag set. -/
theorem usable_iff (calls : List κ) : api.Usable calls ↔ api.NoFailure calls := by
  constructor
  · intro usable front back split idle
    have kept := usable.restored front _ back split ((api.threw_iff _ _).mpr ⟨rfl, idle⟩)
    rw [api.throws _ idle] at kept
    have flag := congrArg Singleton.initializing kept
    rw [idle.2] at flag
    cases flag
  · intro fine
    have settled : ∀ front back, calls = front ++ back → Settled (api.after front) := fun front back split =>
      .after fun front' back' split' => fine front' (back' ++ back) (by simp [split, split'])
    refine ⟨fun front c back split threw => ?_, fun front back split => (settled front back split).pointer,
      fun front back split noManager lm => ?_⟩
    · obtain ⟨rfl, idle⟩ := (api.threw_iff _ _).mp threw
      exact absurd idle (fine front back split)
    · have state := settled front back split
      refine api.constructs _ lm ⟨?_, state.initializing⟩
      rw [← Bool.not_eq_true, ← state.pointer, noManager]
      simp

end SingletonCalls

/-- For both classes. -/
theorem singletons_usable_iff {μ : Type*} (managerCalls : List (LSMIOManager.SingletonCall μ))
    (streamCalls : List (LSMIOStream.SingletonCall μ)) :
    (LSMIOManager.singletonCalls.Usable managerCalls ↔ LSMIOManager.singletonCalls.NoFailure managerCalls) ∧
      (LSMIOStream.singletonCalls.Usable streamCalls ↔ LSMIOStream.singletonCalls.NoFailure streamCalls) :=
  ⟨SingletonCalls.usable_iff managerCalls, SingletonCalls.usable_iff streamCalls⟩

/-- After one constructor that throws, a second `initialize` is refused although there is no manager. -/
theorem not_usable_after_failure :
    (¬ ∀ calls : List (LSMIOManager.SingletonCall Unit), LSMIOManager.singletonCalls.Usable calls) ∧
      (¬ ∀ calls : List (LSMIOStream.SingletonCall Unit), LSMIOStream.singletonCalls.Usable calls) ∧
      (LSMIOManager.singletonCalls.after [.initializeLm none]).lm = (none : Option Unit) ∧
      (LSMIOManager.call (LSMIOManager.singletonCalls.after [.initializeLm none]) (.initializeLm (some ()))).1 =
        some (.manager none) := by
  refine ⟨fun always => ?_, fun always => ?_, rfl, rfl⟩
  · have retried := (always [.initializeLm none]).retries [.initializeLm none] [] rfl rfl ()
    cases retried
  · have retried := (always [.initializeLm none]).retries [.initializeLm none] [] rfl rfl ()
    cases retried

end LSMIO
