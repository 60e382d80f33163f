import Mathlib

/-- Finite runs of a labelled transition relation from a fixed first state,
with the labels of the steps taken, oldest first. -/
inductive Run {σ ε : Type*} (next : σ → ε → σ → Prop) (first : σ) : List ε → σ → Prop
  | start : Run next first [] first
  | step {trace : List ε} {s s' : σ} {e : ε} :
      Run next first trace s → next s e s' → Run next first (trace ++ [e]) s'

namespace Run

variable {σ ε : Type*} {next : σ → ε → σ → Prop} {first : σ}

theorem mono {next' : σ → ε → σ → Prop} {trace : List ε} {s : σ}
    (weaker : ∀ s e s', next s e s' → next' s e s') (run : Run next first trace s) :
    Run next' first trace s := by
  induction run with
  | start => exact .start
  | step _ taken ih => exact .step ih (weaker _ _ _ taken)

theorem append {earlier later : List ε} {s s' : σ} (front : Run next first earlier s)
    (back : Run next s later s') : Run next first (earlier ++ later) s' := by
  induction back with
  | start => simpa using front
  | step _ taken ih =>
    rw [← List.append_assoc]
    exact .step ih taken

theorem nil_eq {s : σ} {trace : List ε} (run : Run next first trace s) (empty : trace = []) :
    s = first := by
  cases run with
  | start => rfl
  | step _ _ => simp at empty

/-- The last step of a run, recovered from its trace. -/
theorem snoc_inv {trace : List ε} {e : ε} {s' : σ} (run : Run next first (trace ++ [e]) s') :
    ∃ s, Run next first trace s ∧ next s e s' := by
  generalize whole : trace ++ [e] = labels at run
  cases run with
  | start => simp at whole
  | step previous taken =>
    obtain ⟨rfl, same⟩ := List.append_inj' whole rfl
    cases same
    exact ⟨_, previous, taken⟩

/-- A run is cut anywhere in its trace into a run to the cut and one from it. -/
theorem split {earlier later : List ε} {s' : σ} (run : Run next first (earlier ++ later) s') :
    ∃ s, Run next first earlier s ∧ Run next s later s' := by
  induction later using List.reverseRecOn generalizing s' with
  | nil => exact ⟨s', by simpa using run, .start⟩
  | append_singleton later e ih =>
    rw [← List.append_assoc] at run
    obtain ⟨middle, previous, taken⟩ := run.snoc_inv
    obtain ⟨s, front, back⟩ := ih previous
    exact ⟨s, front, .step back taken⟩

/-- The induction rule of runs: what holds of the first state with no steps
taken, and is kept by each step together with its label, holds after every run. -/
theorem invariant {P : List ε → σ → Prop} {trace : List ε} {s : σ}
    (run : Run next first trace s) (initial : P [] first)
    (kept : ∀ trace s e s', Run next first trace s → P trace s → next s e s' → P (trace ++ [e]) s') :
    P trace s := by
  induction run with
  | start => exact initial
  | step previous taken ih => exact kept _ _ _ _ previous ih taken

end Run

/-- No step is enabled. -/
def Stuck {σ ε : Type*} (next : σ → ε → σ → Prop) (s : σ) : Prop := ∀ e s', ¬ next s e s'

/-- Where every step makes a measure smaller, each state reaches a stuck one. -/
theorem Run.exists_stuck {σ ε : Type*} {next : σ → ε → σ → Prop} (measure : σ → Nat)
    (decreasing : ∀ s e s', next s e s' → measure s' < measure s) (s : σ) :
    ∃ trace s', Run next s trace s' ∧ Stuck next s' := by
  induction bound : measure s using Nat.strong_induction_on generalizing s with
  | _ n ih =>
    by_cases stuck : Stuck next s
    · exact ⟨[], s, .start, stuck⟩
    · simp only [Stuck, not_forall, not_not] at stuck
      obtain ⟨e, middle, taken⟩ := stuck
      have smaller := decreasing s e middle taken
      obtain ⟨trace, s', rest, final⟩ := ih (measure middle) (bound ▸ smaller) middle rfl
      exact ⟨[] ++ [e] ++ trace, s', (Run.step .start taken).append rest, final⟩

/-- The transitions of an executable step function, restricted to the steps
that a condition on the state and the label allows. -/
def Allowed {σ ε : Type*} (step : σ → ε → Option σ) (ok : σ → ε → Prop) (s : σ) (e : ε) (s' : σ) : Prop :=
  ok s e ∧ step s e = some s'

/-- The step function that refuses what the condition does not allow. -/
def guarded {σ ε : Type*} (step : σ → ε → Option σ) (ok : σ → ε → Prop) [DecidableRel ok] (s : σ) (e : ε) : Option σ :=
  if ok s e then step s e else none

/-- Evaluating a trace label by label gives the run with that trace. -/
theorem Run.of_foldlM {σ ε : Type*} {step : σ → ε → Option σ} {ok : σ → ε → Prop} [DecidableRel ok]
    {trace : List ε} {s s' : σ} (eval : trace.foldlM (guarded step ok) s = some s') :
    Run (Allowed step ok) s trace s' := by
  induction trace using List.reverseRecOn generalizing s' with
  | nil =>
    cases Option.some.inj eval
    exact .start
  | append_singleton trace e ih =>
    rw [List.foldlM_append] at eval
    obtain ⟨middle, front, last⟩ := Option.bind_eq_some_iff.mp eval
    have taken : guarded step ok middle e = some s' := by simpa using last
    unfold guarded at taken
    split at taken
    next fine => exact .step (ih front) ⟨fine, taken⟩
    next => cases taken

/-- A trace whose evaluation ends in a state with a decidable property is a run to such a state. -/
theorem Run.exists_of_any {σ ε : Type*} {step : σ → ε → Option σ} {ok : σ → ε → Prop} [DecidableRel ok] {P : σ → Prop}
    [DecidablePred P] {trace : List ε} {s : σ} (eval : (trace.foldlM (guarded step ok) s).any (fun s' => P s')) :
    ∃ s', Run (Allowed step ok) s trace s' ∧ P s' := by
  cases same : trace.foldlM (guarded step ok) s with
  | none => simp [same] at eval
  | some s' => exact ⟨s', .of_foldlM same, by simpa [same] using eval⟩

/-- Where a map takes each step to a step of another function, it takes an evaluation to the other's. -/
theorem List.map_foldlM {σ τ ε : Type*} {step : σ → ε → Option σ} {step' : τ → ε → Option τ} {f : σ → τ}
    (simulates : ∀ s e, (step s e).map f = step' (f s) e) (trace : List ε) (s : σ) :
    (trace.foldlM step s).map f = trace.foldlM step' (f s) := by
  induction trace generalizing s with
  | nil => rfl
  | cons e trace ih =>
    rw [List.foldlM_cons, List.foldlM_cons, ← simulates s e]
    cases step s e with
    | none => rfl
    | some middle => exact ih middle

/-- What the last label adds to a projection of a trace. -/
theorem List.filterMap_snoc {ε κ : Type*} (f : ε → Option κ) (trace : List ε) (e : ε) :
    (trace ++ [e]).filterMap f = trace.filterMap f ++ (f e).toList := by
  rw [List.filterMap_append, List.filterMap_cons, List.filterMap_nil]
  cases f e with
  | none => rfl
  | some label => rfl
