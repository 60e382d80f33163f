import LSMIO.CrashDurability
import LSMIO.ReadYourWrites

namespace LSMIO.State

variable {cfg : Config} {ok : State → Event → Prop} {first s s' : State} {trace later : List Event}

/-- A front part of the mutations is what had landed at some moment. -/
theorem exists_moment {front : List (Key × Value)} (isFront : front <+: mutations trace) :
    ∃ moment rest, trace = moment ++ rest ∧ mutations moment = front := by
  obtain ⟨behind, whole⟩ := isFront
  obtain ⟨moment, rest, split, landed, -⟩ := List.filterMap_eq_append_iff.mp whole.symm
  exact ⟨moment, rest, split, landed⟩

/-- A thread past its search of the memtables: at some moment since its call they had no entry of the key. -/
def MissedAt (key : Key) (called during : List Event) (s : State) : Prop :=
  ∃ moment rest old, during = moment ++ rest ∧ old <:+ mutations (called ++ moment) ∧ lastValue old key = none ∧
    s.memData <:+ old ++ mutations rest

theorem missedAt_of_run {called during : List Event} {asked : State} {t : Tid} {key : Key}
    (intact : ∀ s e, ok s e → e.intact = true) {dir : Directory} {entries : List (FileName × Bytes)}
    (front : Run (Allowed (step cfg) ok) (openStore cfg dir entries) called asked)
    (outside : asked.pcs t ≠ .missed key) (back : Run (Allowed (step cfg) ok) asked during s)
    (missed : s.pcs t = .missed key) :
    MissedAt key called during s := by
  revert missed
  refine back.invariant (P := fun during s => s.pcs t = .missed key → MissedAt key called during s)
    (fun missed => absurd missed outside) ?_
  rintro during s e s' upTo before ⟨allowed, taken⟩ missed
  cases step_pcs taken t with
  | same kept =>
    obtain ⟨moment, rest, old, rfl, here, absent, memory⟩ := before (kept ▸ missed)
    refine ⟨moment, rest ++ [e], old, List.append_assoc .., here, absent, ?_⟩
    have after := (step_effect taken (intact s e allowed)).memData_suffix
    rw [mutations_append, mutations_singleton, ← List.append_assoc]
    exact after.trans ((List.suffix_append_inj_of_length_eq rfl).mpr ⟨memory, rfl⟩)
  | missed k now absent =>
    cases now.symm.trans missed
    obtain ⟨flushed, inv⟩ := Inv.of_run intact ((front.append upTo).step ⟨allowed, taken⟩)
    refine ⟨during ++ [e], [], s'.memData, (List.append_nil _).symm, ?_, ?_, by simp⟩
    · rw [← List.append_assoc, inv.log, pending, ← List.append_assoc]
      exact List.suffix_append _ _
    · rwa [memtableGet_eq] at absent
  | idle now => cases now.symm.trans missed
  | entered c now => cases now.symm.trans missed
  | backpressure c now => cases now.symm.trans missed
  | waiting now drained => cases now.symm.trans missed

/-- What is flushed at the return of a search answers like the mutations at some moment since the call, unless
the flush has the key in its hands. -/
theorem MissedAt.exists_moment {called during : List Event} {key : Key} {flushed : Flushed}
    (missed : MissedAt key called during s) (inv : Inv first (called ++ during) s flushed)
    (clear : lastValue s.hand.data key = none) :
    ∃ moment rest, during = moment ++ rest ∧
      lastValue (mutations (called ++ moment)) key = lastValue flushed.log key := by
  obtain ⟨moment, rest, old, rfl, here, absent, memory⟩ := missed
  have places := inv.log
  rw [← List.append_assoc, mutations_append, pending] at places
  rcases List.append_eq_append_iff.mp places with ⟨published, covered, left⟩ | ⟨unpublished, landed, left⟩
  · -- The tables hold all that had landed at the search, and some of what came behind it.
    have front : published <+: mutations rest := ⟨_, left.symm⟩
    obtain ⟨between, behind, rfl, same⟩ := State.exists_moment front
    refine ⟨moment ++ between, behind, (List.append_assoc ..).symm, ?_⟩
    rw [← List.append_assoc, mutations_append, covered, same]
  · -- The tables lack entries that had landed at the search: none of them is one of the key.
    refine ⟨moment, rest, rfl, ?_⟩
    have without : lastValue unpublished key = none := by
      rcases List.append_eq_append_iff.mp left with ⟨searched, unpublishedIs, inMemory⟩ | ⟨more, held, -⟩
      · rw [inMemory, List.suffix_append_inj_of_length_eq rfl] at memory
        obtain ⟨⟨earlier, rfl⟩, -⟩ := memory
        rw [lastValue_append, Option.or_eq_none_iff] at absent
        rw [unpublishedIs, lastValue_append, absent.1, Option.none_or, clear]
      · rw [held, lastValue_append, Option.or_eq_none_iff] at clear
        exact clear.2
    rw [landed, lastValue_append, without, Option.none_or]

/-- A `get` takes effect at one moment, as long as it does not search the tables for a key that the flush has in its
hands: it returns what the mutations landed then leave under the key, and the moment lies between its call and its
return. Whatever it does, what it returns was there at some moment of the run. -/
theorem get_linearizes {dir : Directory} {listed : List (FileName × Bytes)} {before during : List Event} {t : Tid}
    {key : Key} {r : Result} (listing : listed.Perm dir.toList)
    (room : ∀ name content id, dir[name]? = some content → parseId name = some id → id + 1 < 2 ^ 64)
    (run : Run (Allowed (step cfg) fun _ e => e.intact = true ∧ ∀ entry ∈ e.mutation, Short entry)
      (openStore cfg dir listed) (before ++ [.call t (.get key)] ++ during) s)
    (returns : step cfg s (.ret t (.get key) r) = some s') :
    ∃ moment rest, before ++ [.call t (.get key)] ++ during = moment ++ rest ∧
      r = .value (visible ((lastValue (mutations moment) key).or ((openStore cfg dir listed).sstableGet key))) ∧
      (s.SearchClear (.ret t (.get key) r) → before ++ [.call t (.get key)] <+: moment) := by
  have intact : ∀ (s : State) (e : Event), e.intact = true ∧ (∀ entry ∈ e.mutation, Short entry) → e.intact = true :=
    fun _ _ allowed => allowed.1
  obtain ⟨flushed, inv⟩ := Inv.of_run intact run
  have short := mutations_short (fun _ _ allowed => allowed.2) run
  have tables : s.sstableGet key = (lastValue flushed.log key).or ((openStore cfg dir listed).sstableGet key) := by
    rw [inv.sstableGet_eq short key]
    exact congrArg _ (get_found listing room (Confined.of_run run) .whole key)
  rcases (stepRet_get (stepRet_of_step returns)).2 with ⟨-, stored, inMemory, rfl⟩ | ⟨missed, rfl⟩
  · -- Found in the memtables: the moment is the return.
    refine ⟨_, [], (List.append_nil _).symm, ?_, fun _ => List.prefix_append _ _⟩
    rw [inv.log, pending, lastValue_append, lastValue_append, ← memtableGet_eq, inMemory, Option.some_or,
      Option.some_or, Option.some_or]
  · by_cases clear : s.SearchClear (.ret t (.get key) (.value (visible (s.sstableGet key))))
    · obtain ⟨called, upToCall, back⟩ := run.split
      obtain ⟨_, -, -, calling⟩ := upToCall.snoc_inv
      obtain ⟨moment, rest, rfl, same⟩ :=
        (missedAt_of_run intact upToCall (not_missed_of_call calling key) back missed).exists_moment inv (clear missed)
      refine ⟨_, rest, (List.append_assoc ..).symm, ?_, fun _ => List.prefix_append _ _⟩
      rw [same, tables]
    · obtain ⟨moment, rest, split, landed⟩ := State.exists_moment ⟨_, inv.log.symm⟩
      exact ⟨moment, rest, split, by rw [landed, tables], fun clear' => absurd clear' clear⟩

/-- A put lands behind the search of the memtables: the `get` takes effect before it. -/
theorem get_linearizes_before : ∃ s s' : State, s.SearchClear (.ret 0 (.get [1]) (.value none)) ∧
    step ⟨100, 4, 2, 0⟩ s (.ret 0 (.get [1]) (.value none)) = some s' ∧
    ∃ moment rest, [.call 1 (.put [1] [7] false), .call 0 (.get [1]), .searched 0,
      .ret 1 (.put [1] [7] false) (.bool true)] =
      moment ++ rest ∧ visible (lastValue (mutations moment) [1]) = none ∧
      [.call 1 (.put [1] [7] false), .call 0 (.get [1])] <+: moment := by
  obtain ⟨s, run, clear, returned⟩ :
    ∃ s, Run (Allowed (step ⟨100, 4, 2, 0⟩) fun _ e => e.intact = true ∧ ∀ entry ∈ e.mutation, Short entry)
      (openStore ⟨100, 4, 2, 0⟩ ∅ [])
        (([.call 1 (.put [1] [7] false)] : List Event) ++ ([.call 0 (.get [1])] : List Event) ++
        ([.searched 0, .ret 1 (.put [1] [7] false) (.bool true)] : List Event)) s ∧
      s.SearchClear (.ret 0 (.get [1]) (.value none)) ∧
        (step ⟨100, 4, 2, 0⟩ s (.ret 0 (.get [1]) (.value none))).isSome :=
    Run.exists_of_any (by decide +kernel)
  obtain ⟨s', returns⟩ := Option.isSome_iff_exists.mp returned
  obtain ⟨moment, rest, split, result, since⟩ := get_linearizes (by simp) (by simp) run returns
  refine ⟨s, s', clear, returns, moment, rest, split, ?_, since clear⟩
  have nothing : (openStore ⟨100, 4, 2, 0⟩ ∅ []).sstableGet [1] = none := rfl
  rw [nothing, Option.or_none] at result
  exact (Result.value.inj result).symm

end LSMIO.State
