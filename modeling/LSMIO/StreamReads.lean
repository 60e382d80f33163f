import LSMIO.Stream
import LSMIO.Library.OrderedMap

namespace LSMIO

/-- The bytes of each file at the offsets that have been written: what a stream is to behave like. -/
abbrev FileBytes := Bytes → Int → Option UInt8

namespace FileBytes

/-- The bytes at the offsets from `off` on are overwritten. -/
def overwrite (files : FileBytes) (path : Bytes) (off : Int) (bytes : Bytes) : FileBytes := fun path' at' =>
  if path' = path ∧ off ≤ at' ∧ at' < off + bytes.length then bytes[(at' - off).toNat]? else files path' at'

def truncate (files : FileBytes) (path : Bytes) : FileBytes := fun path' at' =>
  if path' = path then none else files path' at'

end FileBytes

/-- The stream next to the files it is to behave like. -/
structure Compared (Id : Type*) where
  stream : LSMIOStream Id
  files : FileBytes

namespace Compared

variable {Id : Type*}

def start (initialized : Bool) : Compared Id := ⟨.start initialized, fun _ _ => none⟩

/-- What a call does to the files: a write at the position of its stream, and an opening with truncation. -/
def filesAfter (s : Compared Id) : StreamEvent Id → FileBytes
  | .write id bytes true => s.files.overwrite (s.stream.filePath id) (s.stream.offset (s.stream.filePath id)) bytes
  | .open _ filename mode => if .trunc ∈ mode then s.files.truncate filename else s.files
  | _ => s.files

def step [DecidableEq Id] (s : Compared Id) (e : StreamEvent Id) : Option (Compared Id) :=
  (s.stream.step e).map fun stream => ⟨stream, s.filesAfter e⟩

/-- `bytes` are the `n` bytes of the file from `off` on, all of which exist. -/
def Holds (s : Compared Id) (path : Bytes) (off n : Int) (bytes : Bytes) : Prop :=
  (bytes.length : Int) = n ∧ ∀ i (inside : i < bytes.length), s.files path (off + i) = some bytes[i]

/-- No stream, whatever its path and position, reads anything else than the file holds. -/
def ReadsRight (s : Compared Id) : Prop :=
  ∀ path off n bytes, s.stream.readAt path off n = some bytes → s.Holds path off n bytes

/-- A write changes no byte of a value stored under another offset of its file, and a
file opened with truncation has nothing stored but empty values. -/
def Harmless (s : Compared Id) : StreamEvent Id → Prop
  | .write id bytes true =>
    ∀ off value, s.stream.lm[LSMIOStream.genKey (s.stream.filePath id) off]? = some value →
      let here := s.stream.offset (s.stream.filePath id)
      off ≠ here → ∀ at', off ≤ at' → at' < off + value.length → here ≤ at' → at' < here + bytes.length →
        value[(at' - off).toNat]? = bytes[(at' - here).toNat]?
  | .open _ filename mode =>
    .trunc ∈ mode → ∀ off value, s.stream.lm[LSMIOStream.genKey filename off]? = some value → value = []
  | _ => True

variable {s s' : Compared Id}

/-- Every stored value is what its file holds at the offset of its key. -/
def Faithful (s : Compared Id) : Prop :=
  ∀ path off value, s.stream.lm[LSMIOStream.genKey path off]? = some value → s.Holds path off value.length value

end Compared

namespace LSMIOStream

theorem colon_notMem_toString (off : Int) : (58 : UInt8) ∉ toString off := by
  have digital : ∀ n, (58 : UInt8) ∉ Decimal.digits n := fun n member => by
    have digit := Decimal.digits_isDigit n 58 member
    simp [Decimal.isDigit] at digit
  cases off with
  | ofNat n => exact digital n
  | negSucc n =>
    simp only [toString, List.mem_append, not_or]
    exact ⟨by decide +kernel, digital (n + 1)⟩

theorem toString_injective : Function.Injective toString := by
  have signed : ∀ m n, Decimal.digits m ≠ ascii "-" ++ Decimal.digits n := by
    intro m n same
    have digit := Decimal.digits_isDigit m 45 (by rw [same]; exact List.mem_append_left _ (by decide +kernel))
    simp [Decimal.isDigit] at digit
  intro m n same
  cases m with
  | ofNat m =>
    cases n with
    | ofNat n => exact congrArg Int.ofNat (Decimal.digits_injective same)
    | negSucc n => exact absurd same (signed m (n + 1))
  | negSucc m =>
    cases n with
    | ofNat n => exact absurd same.symm (signed n (m + 1))
    | negSucc n =>
      have next := Decimal.digits_injective (List.append_cancel_left same)
      exact congrArg Int.negSucc (Nat.succ.inj next)

/-- Every path and offset has a key of its own. -/
theorem genKey_inj {path path' : Bytes} {off off' : Int} :
    genKey path off = genKey path' off' ↔ path = path' ∧ off = off' := by
  constructor
  · intro same
    have split : ∀ path off, genKey path off = (path ++ [58]) ++ 58 :: toString off := by
      have colons : ascii "::" = [58, 58] := by decide +kernel
      simp [genKey, colons]
    rw [split, split] at same
    obtain ⟨front, text⟩ := Decimal.append_separator_inj (colon_notMem_toString off) (colon_notMem_toString off') same
    exact ⟨List.append_cancel_right front, toString_injective text⟩
  · rintro ⟨rfl, rfl⟩
    rfl

variable {Id : Type*} {s s' : LSMIOStream Id} {e : StreamEvent Id}

theorem read_frame (s : LSMIOStream Id) (id : Id) (n : Int) :
    (s.read id n).2.lm = s.lm ∧ (s.read id n).2.initialized = s.initialized := by
  unfold read
  simp only
  split
  · exact ⟨rfl, rfl⟩
  · split <;> exact ⟨rfl, rfl⟩

/-- A call stores nothing, or it is a write that stores its bytes under the key of its position. -/
inductive StoreStep (s : LSMIOStream Id) (e : StreamEvent Id) (s' : LSMIOStream Id) : Prop
  | kept (other : ∀ id bytes, e ≠ .write id bytes true) (lm : s'.lm = s.lm)
    (initialized : s'.initialized = s.initialized)
  | put (id : Id) (bytes : Bytes) (is : e = .write id bytes true) (ready : s.initialized = true)
      (lm : s'.lm = s.lm.insert (genKey (s.filePath id) (s.offset (s.filePath id))) bytes)
      (initialized : s'.initialized = s.initialized)

theorem step_store [DecidableEq Id] (taken : s.step e = some s') : StoreStep s e s' := by
  cases e with
  | «open» id filename mode =>
    cases taken
    exact .kept (by simp) rfl rfl
  | read id n ret =>
    simp only [step] at taken
    split at taken
    · cases taken
      obtain ⟨lm, initialized⟩ := read_frame s id n
      exact .kept (by simp) lm initialized
    · cases taken
  | write id bytes ok =>
    simp only [step, write] at taken
    split at taken
    next ready =>
      split at taken
      next returned =>
        cases taken
        subst returned
        exact .put id bytes rfl ready rfl rfl
      next => cases taken
    next =>
      split at taken
      next returned =>
        cases taken
        subst returned
        exact .kept (by simp) rfl rfl
      next => cases taken
  | seekp id off way ok =>
    simp only [step, seekp] at taken
    split at taken
    · split at taken
      · cases taken
        exact .kept (by simp) rfl rfl
      · cases taken
    · split at taken
      · cases taken
        exact .kept (by simp) rfl rfl
      · cases taken
  | close id =>
    cases taken
    exact .kept (by simp) rfl rfl

end LSMIOStream

namespace Compared

variable {Id : Type*} {s s' : Compared Id}

/-- A value that is read is the stored one, or empty where nothing is stored. -/
theorem readAt_eq_some {path bytes : Bytes} {off n : Int} (stream : LSMIOStream Id) :
    stream.readAt path off n = some bytes ↔ stream.initialized = true ∧ (bytes.length : Int) = n ∧
      (stream.lm[LSMIOStream.genKey path off]?).getD [] = bytes := by
  have measured : ∀ value : Bytes, ((if (value.length : Int) ≠ n then none else some value) = some bytes ↔
      (bytes.length : Int) = n ∧ value = bytes) := by
    intro value
    by_cases same : (value.length : Int) = n
    · rw [if_neg (not_not.mpr same), Option.some.injEq]
      constructor
      · rintro rfl
        exact ⟨same, rfl⟩
      · exact And.right
    · rw [if_pos same]
      constructor
      · intro read
        cases read
      · rintro ⟨length, rfl⟩
        exact absurd length same
  unfold LSMIOStream.readAt
  split
  next ready =>
    rw [ready, eq_self, true_and]
    exact measured _
  next unready => simp [unready]

theorem Faithful.readsRight (faithful : s.Faithful) : s.ReadsRight := by
  intro path off n bytes read
  obtain ⟨-, rfl, stored⟩ := (readAt_eq_some _).mp read
  cases found : s.stream.lm[LSMIOStream.genKey path off]? with
  | none =>
    rw [found] at stored
    cases stored
    exact ⟨rfl, fun i inside => by cases inside⟩
  | some value =>
    rw [found] at stored
    cases stored
    exact faithful path off value found

/-- Nothing is stored before the manager is there. -/
def Unready (s : Compared Id) : Prop := s.stream.initialized = false → s.stream.lm = ∅

theorem readsRight_iff (unready : s.Unready) : s.ReadsRight ↔ s.Faithful := by
  refine ⟨fun right path off value found => ?_, Faithful.readsRight⟩
  cases ready : s.stream.initialized with
  | true => exact right path off value.length value ((readAt_eq_some _).mpr ⟨ready, rfl, by rw [found]; rfl⟩)
  | false =>
    rw [unready ready] at found
    simp at found

theorem read_eq_readAt (stream : LSMIOStream Id) (id : Id) (n : Int) :
    (stream.read id n).1 = stream.readAt (stream.filePath id) (stream.offset (stream.filePath id)) n := by
  unfold LSMIOStream.read
  simp only
  cases stream.readAt (stream.filePath id) (stream.offset (stream.filePath id)) n <;> rfl

theorem Faithful.same (faithful : s.Faithful) (lm : s'.stream.lm = s.stream.lm) (files : s'.files = s.files) :
    s'.Faithful := by
  simpa only [Faithful, Holds, lm, files] using faithful

/-- Truncation leaves a faithful state exactly when nothing but empty values was stored. -/
theorem Faithful.truncate_iff {filename : Bytes} (faithful : s.Faithful) (lm : s'.stream.lm = s.stream.lm)
    (files : s'.files = s.files.truncate filename) : s'.Faithful ↔
      ∀ off value, s.stream.lm[LSMIOStream.genKey filename off]? = some value → value = [] := by
  constructor
  · intro after off value found
    obtain ⟨-, held⟩ := after filename off value (lm ▸ found)
    cases value with
    | nil => rfl
    | cons b rest =>
      have there := held 0 (Nat.zero_lt_succ _)
      rw [files, FileBytes.truncate, if_pos rfl] at there
      cases there
  · intro empty path off value found
    rw [lm] at found
    refine ⟨rfl, fun i inside => ?_⟩
    have other : path ≠ filename := by
      rintro rfl
      rw [empty off value found] at inside
      cases inside
    rw [files, FileBytes.truncate, if_neg other]
    exact (faithful path off value found).2 i inside

theorem overwrite_inside {files : FileBytes} {path bytes : Bytes} {off : Int} {i : Nat} (inside : i < bytes.length) :
    files.overwrite path off bytes path (off + i) = some bytes[i] := by
  rw [FileBytes.overwrite, if_pos ⟨rfl, by omega, by omega⟩, show (off + i - off).toNat = i by omega,
    List.getElem?_eq_getElem inside]

/-- A write leaves a faithful state exactly when it changes no byte of a value stored under another offset. -/
theorem Faithful.overwrite_iff {path bytes : Bytes} {here : Int} (faithful : s.Faithful)
    (lm : s'.stream.lm = s.stream.lm.insert (LSMIOStream.genKey path here) bytes)
    (files : s'.files = s.files.overwrite path here bytes) : s'.Faithful ↔
      ∀ off value, s.stream.lm[LSMIOStream.genKey path off]? = some value → off ≠ here →
        ∀ at', off ≤ at' → at' < off + value.length → here ≤ at' → at' < here + bytes.length →
          value[(at' - off).toNat]? = bytes[(at' - here).toNat]? := by
  have lookup : ∀ path' off, s'.stream.lm[LSMIOStream.genKey path' off]? =
      if path = path' ∧ here = off then some bytes else s.stream.lm[LSMIOStream.genKey path' off]? := by
    intro path' off
    rw [lm, OrderedMap.getElem?_insert]
    simp only [LSMIOStream.genKey_inj]
  constructor
  · intro after off value found other at' low high low' high'
    have kept : s'.stream.lm[LSMIOStream.genKey path off]? = some value := by
      rw [lookup, if_neg fun same => other same.2.symm, found]
    obtain ⟨-, held⟩ := after path off value kept
    have inside : (at' - off).toNat < value.length := by omega
    have there := held (at' - off).toNat inside
    rw [show off + ((at' - off).toNat : Int) = at' by
      omega, files, FileBytes.overwrite, if_pos ⟨rfl, low', high'⟩] at there
    rw [there, List.getElem?_eq_getElem inside]
  · intro agree path' off value found
    refine ⟨rfl, fun i inside => ?_⟩
    rw [files]
    rw [lookup] at found
    split at found
    next same =>
      obtain ⟨rfl, rfl⟩ := same
      cases found
      exact overwrite_inside inside
    next other =>
      have before := (faithful path' off value found).2 i inside
      unfold FileBytes.overwrite
      split
      next within =>
        obtain ⟨rfl, low, high⟩ := within
        rw [← agree off value found (fun same => other ⟨rfl, same.symm⟩) (off + i) (by omega) (by omega) low high,
          show (off + i - off).toNat = i by omega, List.getElem?_eq_getElem inside]
      next => exact before

theorem harmless_of_empty (empty : s.stream.lm.isEmpty = true) (e : StreamEvent Id) : s.Harmless e := by
  have nothing : ∀ key : Key, s.stream.lm[key]? = none := fun key => by
    rw [Std.ExtTreeMap.isEmpty_iff.mp empty]
    rfl
  cases e with
  | «open» id filename mode =>
    intro truncates off value found
    rw [nothing] at found
    cases found
  | write id bytes ok =>
    cases ok with
    | true =>
      intro off value found
      rw [nothing] at found
      cases found
    | false => trivial
  | _ => trivial

variable [DecidableEq Id] {e : StreamEvent Id}

/-- The calls that keep the stored values faithful are the harmless ones. -/
theorem Faithful.step_iff (faithful : s.Faithful) (taken : s.step e = some s') : s'.Faithful ↔ s.Harmless e := by
  obtain ⟨stream, done, rfl⟩ := Option.map_eq_some_iff.mp taken
  cases LSMIOStream.step_store done with
  | put id bytes is _ lm _ =>
    subst is
    exact faithful.overwrite_iff lm rfl
  | kept other lm _ =>
    cases e with
    | «open» id filename mode =>
      by_cases truncates : .trunc ∈ mode
      · simp only [Harmless, truncates, true_imp_iff]
        exact faithful.truncate_iff lm (if_pos truncates)
      · simp only [Harmless, truncates, false_imp_iff, iff_true]
        exact faithful.same lm (if_neg truncates)
    | write id bytes ok =>
      cases ok with
      | true => exact absurd rfl (other id bytes)
      | false => exact iff_of_true (faithful.same lm rfl) trivial
    | read id n ret => exact iff_of_true (faithful.same lm rfl) trivial
    | seekp id off way ok => exact iff_of_true (faithful.same lm rfl) trivial
    | close id => exact iff_of_true (faithful.same lm rfl) trivial

theorem Unready.step (unready : s.Unready) (taken : s.step e = some s') : s'.Unready := by
  obtain ⟨stream, done, rfl⟩ := Option.map_eq_some_iff.mp taken
  intro off
  cases LSMIOStream.step_store done with
  | put _ _ _ ready _ initialized => exact absurd (ready.symm.trans (initialized.symm.trans off)) (by simp)
  | kept _ lm initialized => exact lm.trans (unready (initialized.symm.trans off))

variable {trace : List (StreamEvent Id)} {initialized : Bool}

theorem Faithful.of_run (run : Run (Allowed Compared.step Harmless) (start initialized) trace s) :
    s.Faithful ∧ s.Unready := by
  refine run.invariant (P := fun _ s => s.Faithful ∧ s.Unready) ⟨?_, fun _ => rfl⟩ ?_
  · intro path off value found
    simp [start, LSMIOStream.start] at found
  · rintro trace s e s' - ⟨faithful, unready⟩ ⟨harmless, taken⟩
    exact ⟨(faithful.step_iff taken).mpr harmless, unready.step taken⟩

/-- In a run of harmless calls every read that returns delivers what the file holds at its
position; and a further call keeps this, for every path and position, exactly when it is harmless. -/
theorem reads_right_iff (run : Run (Allowed Compared.step Harmless) (start initialized) trace s) :
    (∀ id n bytes s', s.step (.read id n (some bytes)) = some s' →
      s.Holds (s.stream.filePath id) (s.stream.offset (s.stream.filePath id)) n bytes) ∧
    s.ReadsRight ∧ ∀ e s', s.step e = some s' → (s'.ReadsRight ↔ s.Harmless e) := by
  obtain ⟨faithful, unready⟩ := Faithful.of_run run
  refine ⟨fun id n bytes s' taken => ?_, faithful.readsRight, fun e s' taken => ?_⟩
  · obtain ⟨stream, done, -⟩ := Option.map_eq_some_iff.mp taken
    refine faithful.readsRight _ _ _ _ ?_
    simp only [LSMIOStream.step] at done
    split at done
    next returned => rw [← read_eq_readAt, returned]
    next => cases done
  · rw [readsRight_iff (unready.step taken)]
    exact faithful.step_iff taken

/-- The bytes of a write, read back whole. -/
theorem reads_right_written : ∃ s : Compared Nat, s.stream.readAt [97] 0 2 = some [104, 105] ∧
    s.Holds [97] 0 2 [104, 105] := by
  obtain ⟨s, run, read⟩ :
    ∃ s : Compared Nat, Run (Allowed Compared.step fun s _ => s.stream.lm.isEmpty = true) (start true)
      [.open 0 [97] {.output}, .write 0 [104, 105] true] s ∧ s.stream.readAt [97] 0 2 = some [104, 105] :=
    Run.exists_of_any (by decide +kernel)
  have harmless := run.mono fun s e s' taken =>
    (⟨harmless_of_empty taken.1 e, taken.2⟩ : Allowed Compared.step Harmless s e s')
  exact ⟨s, read, (reads_right_iff harmless).2.1 _ _ _ _ read⟩

/-- A write into the middle of an earlier one: a read of the earlier one returns its old bytes. -/
theorem not_reads_right : ∃ (s s' : Compared Nat) (bytes : Bytes), Run (Allowed Compared.step fun _ _ => True)
    (start true) [.open 0 [97] {.output}, .write 0 [1, 2, 3, 4] true, .seekp 0 2 .beg true, .write 0 [9] true,
      .seekp 0 0 .beg true] s ∧
      s.step (.read 0 4 (some bytes)) = some s' ∧
      ¬ s.Holds (s.stream.filePath 0) (s.stream.offset (s.stream.filePath 0)) 4 bytes := by
  obtain ⟨s, run, returns, path, off, byte⟩ :
    ∃ s : Compared Nat, Run (Allowed Compared.step fun _ _ => True) (start true)
      [.open 0 [97] {.output}, .write 0 [1, 2, 3, 4] true, .seekp 0 2 .beg true, .write 0 [9] true,
        .seekp 0 0 .beg true] s ∧ (s.step (.read 0 4 (some [1, 2, 3, 4]))).isSome ∧ s.stream.filePath 0 = [97] ∧
      s.stream.offset [97] = 0 ∧ s.files [97] 2 = some 9 :=
    Run.exists_of_any (by decide +kernel)
  obtain ⟨s', taken⟩ := Option.isSome_iff_exists.mp returns
  refine ⟨s, s', _, run, taken, fun held => ?_⟩
  rw [path, off] at held
  have third : s.files [97] 2 = some 3 := held.2 2 (by decide)
  rw [byte] at third
  cases third

end Compared

end LSMIO
