import Mathlib

/-! One state that serves the operations of several domains in turn, and what
each domain sees of it: nothing that another domain does. -/

variable {δ α β σ : Type*}

/-- The operations served in order: the state after them, and the outputs, each with the domain of its operation. -/
def serve (domain : α → δ) (act : α → σ → σ × Option β) (s : σ) (ops : List α) : σ × List (δ × β) :=
  ops.foldl (fun sofar a => ((act a sofar.1).1, sofar.2 ++ (act a sofar.1).2.toList.map (domain a, ·))) (s, [])

theorem serve_concat (domain : α → δ) (act : α → σ → σ × Option β) (s : σ) (ops : List α) (a : α) :
    serve domain act s (ops ++ [a]) = ((act a (serve domain act s ops).1).1,
      (serve domain act s ops).2 ++ (act a (serve domain act s ops).1).2.toList.map (domain a, ·)) := by
  simp [serve]

/-- The outputs that go to one domain. -/
def outputsOf [DecidableEq δ] (d : δ) (outputs : List (δ × β)) : List β := (outputs.filter (·.1 = d)).map Prod.snd

theorem outputsOf_append_own [DecidableEq δ] (d : δ) (outputs : List (δ × β)) (new : List β) :
    outputsOf d (outputs ++ new.map (d, ·)) = outputsOf d outputs ++ new := by
  simp [outputsOf, List.filter_map, Function.comp_def]

theorem outputsOf_append_other [DecidableEq δ] {d e : δ} (other : e ≠ d) (outputs : List (δ × β)) (new : List β) :
    outputsOf d (outputs ++ new.map (e, ·)) = outputsOf d outputs := by
  simp [outputsOf, List.filter_map, Function.comp_def, other]

/-- A domain's operations give the same on states that look the same to it, and
the operations of other domains change nothing that it sees. -/
structure Isolated (domain : α → δ) (act : α → σ → σ × Option β) (view : δ → σ → σ → Prop) : Prop where
  refl : ∀ d s, view d s s
  own : ∀ {s t} a, view (domain a) s t → view (domain a) (act a s).1 (act a t).1 ∧ (act a s).2 = (act a t).2
  other : ∀ {d s t} a, domain a ≠ d → view d s t → view d (act a s).1 t

/-- What a domain sees, and all that it gets, is what its own operations give alone. -/
theorem Isolated.serve_filter [DecidableEq δ] {domain : α → δ} {act : α → σ → σ × Option β} {view : δ → σ → σ → Prop}
    (isolated : Isolated domain act view) (d : δ) (s : σ) (ops : List α) :
    view d (serve domain act s ops).1 (serve domain act s (ops.filter (domain · = d))).1 ∧
      outputsOf d (serve domain act s ops).2 = outputsOf d (serve domain act s (ops.filter (domain · = d))).2 := by
  induction ops using List.reverseRecOn with
  | nil => exact ⟨isolated.refl d s, rfl⟩
  | append_singleton ops a ih =>
    obtain ⟨seen, given⟩ := ih
    rw [serve_concat, List.filter_append]
    by_cases mine : domain a = d
    · subst mine
      obtain ⟨seen', given'⟩ := isolated.own a seen
      have kept : [a].filter (domain · = domain a) = [a] := by simp
      rw [kept, serve_concat, outputsOf_append_own, outputsOf_append_own, given, given']
      exact ⟨seen', rfl⟩
    · have dropped : [a].filter (domain · = d) = [] := by simp [mine]
      rw [dropped, List.append_nil, outputsOf_append_other mine]
      exact ⟨isolated.other a mine seen, given⟩
