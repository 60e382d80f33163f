import LSMIO.Library.Runs

variable {σ ε : Type*}

/-- Along a run whose steps each pay for themselves, out of a measure of the state or of what their
own label brings in, no more steps are taken than the first state and the labels have paid for. -/
theorem Run.length_le {next : σ → ε → σ → Prop} (good : σ → Prop) (measure : σ → Nat) (income : ε → Nat)
    (kept : ∀ s e s', good s → next s e s' → good s')
    (paid : ∀ s e s', good s → next s e s' → measure s' + 1 ≤ measure s + income e) {first s : σ} {trace : List ε}
    (run : Run next first trace s) (initial : good first) :
    good s ∧ trace.length + measure s ≤ measure first + (trace.map income).sum := by
  induction run with
  | start => exact ⟨initial, by simp⟩
  | @step trace s s' e _ taken ih =>
    obtain ⟨here, bound⟩ := ih
    have cost := paid s e s' here taken
    refine ⟨kept s e s' here taken, ?_⟩
    simp only [List.length_append, List.length_singleton, List.map_append, List.map_singleton, List.sum_append,
      List.sum_singleton]
    omega
