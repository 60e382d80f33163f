import LSMIO.Library.Codec

/-- A string stream open for reading: what has not been read, and the `eofbit` and the `failbit`. -/
structure StringStream where
  rest : Bytes
  eof : Bool
  fail : Bool

namespace StringStream

def ofText (text : Bytes) : StringStream := ⟨text, false, false⟩

def good (ss : StringStream) : Bool := !ss.eof && !ss.fail

@[simp] theorem good_ofText (text : Bytes) : (ofText text).good = true := rfl

/-- `std::getline`: the bytes up to the delimiter, which is taken away with
them, or up to the end. It fails on a stream that is not good and where nothing is left. -/
def getline (delim : UInt8) (ss : StringStream) : StringStream × Option Bytes :=
  if ss.good then
    let line := ss.rest.takeWhile (· ≠ delim)
    match ss.rest.drop line.length with
    | _ :: rest => (⟨rest, false, false⟩, some line)
    | [] => if line = [] then (⟨[], true, true⟩, none) else (⟨[], true, false⟩, some line)
  else ({ ss with fail := true }, none)

/-- What a loop over `getline` reads until it fails. -/
def linesFrom (delim : UInt8) : Nat → StringStream → List Bytes
  | 0, _ => []
  | fuel + 1, ss => match ss.getline delim with
    | (ss', some line) => line :: linesFrom delim fuel ss'
    | (_, none) => []

/-- What a loop over `getline` reads as long as the stream is good, the empty string where it fails. -/
def fieldsFrom (delim : UInt8) : Nat → StringStream → List Bytes
  | 0, _ => []
  | fuel + 1, ss =>
    if ss.good then
      let (ss', line) := ss.getline delim
      line.getD [] :: fieldsFrom delim fuel ss'
    else []

variable {delim : UInt8} {line : Bytes}

theorem decide_ne_of_fresh (fresh : delim ∉ line) : ∀ b ∈ line, decide (b ≠ delim) = true := by
  intro b member
  simp only [decide_eq_true_eq]
  rintro rfl
  exact fresh member

theorem getline_delimited (fresh : delim ∉ line) (rest : Bytes) :
    (ofText (line ++ delim :: rest)).getline delim = (ofText rest, some line) := by
  have front : (line ++ delim :: rest).takeWhile (· ≠ delim) = line := by
    rw [List.takeWhile_append_of_pos (decide_ne_of_fresh fresh)]
    simp
  simp only [getline, ofText, good, Bool.not_false, Bool.and_self, if_true, front, List.drop_left]

theorem getline_last (fresh : delim ∉ line) (written : line ≠ []) :
    (ofText line).getline delim = (⟨[], true, false⟩, some line) := by
  have whole : line.takeWhile (· ≠ delim) = line := List.takeWhile_eq_self_iff.mpr (decide_ne_of_fresh fresh)
  simp only [getline, ofText, good, Bool.not_false, Bool.and_self, if_true, whole, List.drop_length, if_neg written]

theorem getline_empty : (ofText []).getline delim = (⟨[], true, true⟩, none) := rfl

theorem getline_not_good {ss : StringStream} (bad : ss.good = false) :
    ss.getline delim = ({ ss with fail := true }, none) := by
  simp only [getline, bad, Bool.false_eq_true, if_false]

/-- A line that was read has no delimiter in it. -/
theorem fresh_of_getline {ss : StringStream} (read : (ss.getline delim).2 = some line) :
    delim ∉ line := by
  have front : delim ∉ ss.rest.takeWhile (· ≠ delim) := fun inside => by simpa using List.mem_takeWhile_imp inside
  unfold getline at read
  split at read
  next =>
    simp only at read
    split at read
    · cases read
      exact front
    · split at read <;> cases read
      exact front
  next => cases read

@[simp] theorem linesFrom_ended (fuel : Nat) (fail : Bool) : linesFrom delim fuel ⟨[], true, fail⟩ = [] := by
  cases fuel with
  | zero => rfl
  | succ fuel => rw [linesFrom, getline_not_good rfl]

@[simp] theorem fieldsFrom_ended (fuel : Nat) (fail : Bool) : fieldsFrom delim fuel ⟨[], true, fail⟩ = [] := by
  cases fuel with
  | zero => rfl
  | succ fuel => rfl

theorem linesFrom_delimited (fresh : delim ∉ line) (fuel : Nat) (rest : Bytes) :
    linesFrom delim (fuel + 1) (ofText (line ++ delim :: rest)) = line :: linesFrom delim fuel (ofText rest) := by
  simp only [linesFrom, getline_delimited fresh]

theorem linesFrom_last (fresh : delim ∉ line) (written : line ≠ []) (fuel : Nat) :
    linesFrom delim (fuel + 1) (ofText line) = [line] := by
  simp only [linesFrom, getline_last fresh written, linesFrom_ended]

theorem fieldsFrom_delimited (fresh : delim ∉ line) (fuel : Nat) (rest : Bytes) :
    fieldsFrom delim (fuel + 1) (ofText (line ++ delim :: rest)) = line :: fieldsFrom delim fuel (ofText rest) := by
  simp [fieldsFrom, getline_delimited fresh]

theorem fieldsFrom_last (fresh : delim ∉ line) (fuel : Nat) : fieldsFrom delim (fuel + 1) (ofText line) = [line] := by
  rcases eq_or_ne line [] with rfl | written
  · simp [fieldsFrom, getline_empty]
  · simp [fieldsFrom, getline_last fresh written]

end StringStream

namespace Bytes

open StringStream

/-- The strings that a loop over `getline` reads from a text; a delimiter at its end adds no empty one. -/
def lines (delim : UInt8) (text : Bytes) : List Bytes := linesFrom delim (text.length + 1) (ofText text)

/-- The fields of a text, the empty one behind a delimiter at its end included. -/
def fields (delim : UInt8) (text : Bytes) : List Bytes := fieldsFrom delim (text.length + 1) (ofText text)

/-- A text ends with its first line, or has a delimiter and more behind it. -/
theorem line_cases (delim : UInt8) (text : Bytes) :
    delim ∉ text ∨ ∃ line rest, text = line ++ delim :: rest ∧ delim ∉ line := by
  by_cases here : delim ∈ text
  · obtain ⟨line, rest, whole, fresh⟩ := List.eq_append_cons_of_mem here
    exact .inr ⟨line, rest, whole, fresh⟩
  · exact .inl here

variable {delim : UInt8} {line : Bytes}

/-- One call of `getline` for each byte and one to fail are enough. -/
theorem linesFrom_enough {fuel fuel' : Nat} {text : Bytes} (enough : text.length < fuel)
    (enough' : text.length < fuel') :
    linesFrom delim fuel (ofText text) = linesFrom delim fuel' (ofText text) := by
  induction fuel generalizing fuel' text with
  | zero => omega
  | succ fuel ih =>
    obtain ⟨fuel', rfl⟩ := Nat.exists_eq_add_of_lt (Nat.zero_lt_of_lt enough')
    rw [Nat.zero_add] at enough' ⊢
    rcases line_cases delim text with fresh | ⟨line, rest, rfl, fresh⟩
    · rcases eq_or_ne text [] with rfl | written
      · rfl
      · rw [linesFrom_last fresh written, linesFrom_last fresh written]
    · rw [List.length_append, List.length_cons] at enough enough'
      have tail : linesFrom delim fuel (ofText rest) = linesFrom delim fuel' (ofText rest) := ih (by omega) (by omega)
      rw [linesFrom_delimited fresh, linesFrom_delimited fresh, tail]

theorem fieldsFrom_enough {fuel fuel' : Nat} {text : Bytes} (enough : text.length < fuel)
    (enough' : text.length < fuel') :
    fieldsFrom delim fuel (ofText text) = fieldsFrom delim fuel' (ofText text) := by
  induction fuel generalizing fuel' text with
  | zero => omega
  | succ fuel ih =>
    obtain ⟨fuel', rfl⟩ := Nat.exists_eq_add_of_lt (Nat.zero_lt_of_lt enough')
    rw [Nat.zero_add] at enough' ⊢
    rcases line_cases delim text with fresh | ⟨line, rest, rfl, fresh⟩
    · rw [fieldsFrom_last fresh, fieldsFrom_last fresh]
    · rw [List.length_append, List.length_cons] at enough enough'
      have tail : fieldsFrom delim fuel (ofText rest) = fieldsFrom delim fuel' (ofText rest) := ih (by omega) (by omega)
      rw [fieldsFrom_delimited fresh, fieldsFrom_delimited fresh, tail]

@[simp] theorem lines_nil : lines delim [] = [] := rfl

theorem lines_delimited (fresh : delim ∉ line) (rest : Bytes) :
    lines delim (line ++ delim :: rest) = line :: lines delim rest := by
  have room : rest.length < (line ++ delim :: rest).length := by
    rw [List.length_append, List.length_cons]
    omega
  rw [lines, linesFrom_delimited fresh, lines, linesFrom_enough room (Nat.lt_succ_self _)]

theorem lines_last (fresh : delim ∉ line) (written : line ≠ []) : lines delim line = [line] :=
  linesFrom_last fresh written _

theorem fields_delimited (fresh : delim ∉ line) (rest : Bytes) :
    fields delim (line ++ delim :: rest) = line :: fields delim rest := by
  have room : rest.length < (line ++ delim :: rest).length := by
    rw [List.length_append, List.length_cons]
    omega
  rw [fields, fieldsFrom_delimited fresh, fields, fieldsFrom_enough room (Nat.lt_succ_self _)]

theorem fields_last (fresh : delim ∉ line) : fields delim line = [line] := fieldsFrom_last fresh _

/-- No line has a delimiter in it. -/
theorem fresh_of_mem_lines {text : Bytes} (member : line ∈ lines delim text) : delim ∉ line := by
  induction size : text.length using Nat.strong_induction_on generalizing text with
  | _ n ih =>
    rcases line_cases delim text with fresh | ⟨first, rest, rfl, fresh⟩
    · rcases eq_or_ne text [] with rfl | written
      · cases member
      · rw [lines_last fresh written, List.mem_singleton] at member
        exact member ▸ fresh
    · rw [lines_delimited fresh] at member
      rcases List.mem_cons.mp member with rfl | later
      · exact fresh
      · rw [List.length_append, List.length_cons] at size
        exact ih rest.length (by omega) later rfl

/-- The lines of a joined text are the texts joined, unless the last one is empty. -/
theorem lines_intercalate {pieces : List Bytes} (fresh : ∀ piece ∈ pieces, delim ∉ piece)
    (written : ∀ piece ∈ pieces.getLast?, piece ≠ []) : lines delim ([delim].intercalate pieces) = pieces := by
  induction pieces with
  | nil => rfl
  | cons piece pieces ih =>
    have here := fresh piece (List.mem_cons_self ..)
    cases pieces with
    | nil => rw [List.intercalate_singleton, lines_last here (written piece rfl)]
    | cons next pieces =>
      rw [List.intercalate_cons_cons, List.append_assoc, List.singleton_append, lines_delimited here,
        ih (fun other member => fresh other (List.mem_cons_of_mem _ member)) fun last isLast => written last isLast]

/-- The fields of a joined text are the texts joined. -/
theorem fields_intercalate {pieces : List Bytes} (fresh : ∀ piece ∈ pieces, delim ∉ piece) (nonempty : pieces ≠ []) :
    fields delim ([delim].intercalate pieces) = pieces := by
  induction pieces with
  | nil => exact absurd rfl nonempty
  | cons piece pieces ih =>
    have here := fresh piece (List.mem_cons_self ..)
    cases pieces with
    | nil => rw [List.intercalate_singleton, fields_last here]
    | cons next pieces =>
      rw [List.intercalate_cons_cons, List.append_assoc, List.singleton_append, fields_delimited here,
        ih (fun other member => fresh other (List.mem_cons_of_mem _ member)) (List.cons_ne_nil next pieces)]

end Bytes
