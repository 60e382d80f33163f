import LSMIO.Preallocation

namespace LSMIO

/-- What the store keeps of a call shows again, unless the value put is the tombstone. -/
theorem visible_stored_iff (last : Option (Option Value)) :
    visible (last.map fun outcome => outcome.getD MEMTABLE_TOMBSTONE) = last.join ↔
      last ≠ some (some MEMTABLE_TOMBSTONE) := by
  cases last with
  | none => simp
  | some outcome =>
    cases outcome with
    | none => simp [visible_some]
    | some value =>
      simp only [Option.map_some, Option.getD_some, visible_some, Option.join_some, ne_eq, Option.some.injEq]
      by_cases dead : value = MEMTABLE_TOMBSTONE <;> simp [dead]

namespace State

/-- In any session after any others, with no flush in flight, `get` gives what
the last call left exactly when that is no put of the tombstone, and no padding found at the
opening stands in for an untouched empty key. -/
theorem get_faithful_iff {calls : List (Key × Option Value)} {found : Padded} {cfg : Config} {dir : Directory}
    {listed : List (FileName × Bytes)} {trace : List Event} {s : State}
    (history : History (fun _ => True) calls found dir) (listing : listed.Perm dir.toList)
    (run : Run (Allowed (step cfg) fun _ e => e.InSession) (openStore cfg dir listed) trace s) (idle : s.hand = .idle)
    (key : Key) : s.get key = (lastValue (calls ++ outcomes trace) key).join ↔
      lastValue (calls ++ outcomes trace) key ≠ some (some MEMTABLE_TOMBSTONE) ∧
        (key = [] → lastValue (outcomes trace) [] ≠ none ∨ lastValue calls [] = some (some []) ∨ found.Harmless) := by
  obtain ⟨holds, log⟩ := history.holds
  obtain ⟨flushed, inv, session⟩ := Session.of_run (fun _ _ allowed => allowed.fine) holds listing run
  have short := mutations_short (fun _ _ allowed => allowed.2.2.1) run
  have shown := session.get_eq inv holds short (holds.openStore_head listing cfg) idle key
  obtain ⟨others, harmless, harmful⟩ := found.lastValue_recovered
  rw [shown, contents, lastValue_append, mutations_eq_stored, lastValue_stored, lastValue_append]
  cases now : lastValue (outcomes trace) key with
  | some outcome =>
    -- The session has the last word on the key.
    have touched : key = [] → lastValue (outcomes trace) [] ≠ none := fun empty => by simp [← empty, now]
    rw [Option.map_some, Option.some_or, Option.some_or]
    refine (visible_stored_iff (some outcome)).trans ⟨fun live => ⟨live, fun empty => .inl (touched empty)⟩,
      fun both => both.1⟩
  | none =>
    rw [Option.map_none, Option.none_or, Option.none_or]
    by_cases intact : key = [] → found.Harmless
    · have kept : lastValue found.recovered key = (lastValue calls key).map fun outcome =>
        outcome.getD MEMTABLE_TOMBSTONE := by
        rw [← lastValue_stored, ← log]
        by_cases empty : key = []
        · subst empty
          exact harmless (intact rfl)
        · exact others key empty
      rw [kept, visible_stored_iff]
      exact ⟨fun live => ⟨live, fun empty => .inr (.inr (intact empty))⟩, fun both => both.1⟩
    · obtain ⟨empty, harm⟩ := Classical.not_imp.mp intact
      subst empty
      have blank : visible (some []) = some [] := by decide
      rw [harmful harm, blank]
      simp only [now, harm, ne_eq, not_true_eq_false, or_false, false_or, forall_const]
      cases lastValue calls [] with
      | none => simp
      | some outcome =>
        cases outcome with
        | none => simp
        | some value =>
          simp only [Option.join_some, Option.some.injEq]
          refine ⟨fun same => ?_, fun both => both.2.symm⟩
          subst same
          exact ⟨by decide, rfl⟩

/-- A value put in one session is read in the next. -/
theorem get_faithful_reopened : ∃ s : State, (openStore ⟨100, 4, 2, 0⟩ s.dir s.dir.toList).get [1] = some [7] := by
  obtain ⟨s, run, returned⟩ :
    ∃ s, Run (Allowed (step ⟨100, 4, 2, 0⟩) fun _ e => e.InSession) (openStore ⟨100, 4, 2, 0⟩ ∅ [])
      [.call 0 (.put [1] [7] false), .ret 0 (.put [1] [7] false) (.bool true), .pool .check, .pool (.create true true),
        .pool .insert, .close 0, .flush .exit, .joined, .drain, .flush (.acquire true), .flush (.write none),
        .flush .publish, .flush .finish, .closed] s ∧ s.closer = .closed := Run.exists_of_any (by decide +kernel)
  have reopened : Run (Allowed (step ⟨100, 4, 2, 0⟩) fun _ e => e.InSession)
    (openStore ⟨100, 4, 2, 0⟩ s.dir s.dir.toList) []
      (openStore ⟨100, 4, 2, 0⟩ s.dir s.dir.toList) := .start
  have shown := get_faithful_iff (.session .empty trivial (.refl _) run returned) (.refl _) reopened rfl [1]
  exact ⟨s, (shown.mpr ⟨by decide +kernel, fun empty => (by cases empty)⟩).trans (by decide +kernel)⟩

/-- The tombstone put as a value reads as absent, in the active memtable already. -/
theorem not_get_faithful : ¬ ∀ (calls : List (Key × Option Value)) (found : Padded) (cfg : Config) (dir : Directory)
    (listed : List (FileName × Bytes)) (trace : List Event) (s : State), History (fun _ => True) calls found dir →
      listed.Perm dir.toList → Run (Allowed (step cfg) fun _ e => e.InSession) (openStore cfg dir listed) trace s →
      s.hand = .idle → ∀ key, s.get key = (lastValue (calls ++ outcomes trace) key).join := by
  intro always
  obtain ⟨s, run, idle, absent⟩ :
    ∃ s, Run (Allowed (step ⟨100, 4, 2, 0⟩) fun _ e => e.InSession) (openStore ⟨100, 4, 2, 0⟩ ∅ [])
      [.call 0 (.put [1] MEMTABLE_TOMBSTONE false), .ret 0 (.put [1] MEMTABLE_TOMBSTONE false) (.bool true)] s ∧
      s.hand.isIdle = true ∧ s.get [1] = none := Run.exists_of_any (by decide +kernel)
  have same := always _ _ _ _ _ _ s .empty (.refl _) run (Hand.eq_idle idle) [1]
  rw [absent] at same
  exact absurd same (by decide +kernel)

end State

end LSMIO
