import Std.Data.TreeMap
import EditableLisp.Environment
import EditableLisp.Printer
import EditableLisp.Value.Equality

/-!
# Expansions

A call of an expander keeps how it was expanded and is served from that as long as the same expander is
called (`Expansion`, `made_by`, `reusable_by`). A constant expansion is served only while every name that was looked up
when it was computed still has an equal or identical value (`is_current`, `still_holds`); a template is put together
anew each time (`Bound`, `substitute`). The lookups are recorded in `World.recordings`, one list for each expansion in
progress (`start_recording`, `record_read`, `finish_recording`, `abandon_recordings`).
-/

namespace EditableLisp

/-! ## Templates -/

/-- A new node with the style and gaps of another, but not its spellings. -/
def copyGaps (node : Node) (count : Nat) : Change Node :=
  modifyGet fun w =>
    (⟨w.nextId, node.style, w.gaps? node count, none⟩, { w with nextId := w.nextId + 1 })

mutual

/-- A copy of a template in which every symbol that a frame binds is replaced by its value. Keys are left
alone, and so are the values put in. -/
def substitute (frame : Frame) : Value → Change Value
  | .symbol id name => return ((frame.get? name).map Binding.value).getD (.symbol id name)
  | .seq shape node items => do
    let vs ← substituteItems frame #[] items
    return .seq shape (← copyGaps node items.length) vs
  | .map node entries => do
    let es ← substituteEntries frame #[] entries
    return .map (← copyGaps node (2 * entries.length)) es
  | v => return v

/-- Copies of the elements of a template, after those that are done. -/
def substituteItems (frame : Frame) (done : Array Value) : List Value → Change (List Value)
  | [] => return done.toList
  | v :: rest => do
    let v' ← substitute frame v
    substituteItems frame (done.push v') rest

/-- Copies of the entries of a template, after those that are done. -/
def substituteEntries (frame : Frame) (done : Array (Key × Value)) :
    List (Key × Value) → Change (List (Key × Value))
  | [] => return done.toList
  | (k, v) :: rest => do
    let v' ← substitute frame v
    substituteEntries frame (done.push (k, v')) rest

end

/-- The form that a template with bound parameters stands for. -/
def instantiate (template : Value) (env : Env) : Change Value := do
  substitute ((← get).frame env.frame) template

/-! ## Descriptors -/

namespace Lookup

/-- The name still has the value that was seen. -/
def stillHolds (w : World) (l : Lookup) : Bool :=
  match w.lookup? l.env l.name with
  | some v => v.identical l.value || v.equal l.value
  | none => false

end Lookup

namespace Expansion

/-- The expander that made an expansion. -/
def maker? : Expansion → Option Value
  | constant maker .. => some maker
  | bound maker .. => some maker
  | unchanged => none

/-- All that an expansion depends on is as it was. -/
def isCurrent (w : World) : Expansion → Bool
  | constant _ _ reads => reads.all (Lookup.stillHolds w)
  | _ => true

/-- An expansion serves a call of this expander. -/
def servesFor (w : World) (e : Expansion) (f : Value) : Bool :=
  e.maker?.any (Value.identical f) && e.isCurrent w

/-- The expansion of a macro call, not of an ordinary one. -/
def isExpanderCall : Expansion → Bool
  | unchanged => false
  | _ => true

end Expansion

/-- What a node stands for: its expansion if it was expanded, else its last value. -/
def expandedForm (v : Value) : Change Value := do
  match v with
  | .seq .list node _ =>
    match (← get).expansions.get? node.id with
    | some (.constant _ form _) => return form
    | some (.bound _ template env) => instantiate template env
    | some .unchanged => return v
    | none => return (← get).evaluated v
  | _ => return (← get).evaluated v

/-! ## Recordings -/

/-- Adds a lookup to the expansion in progress, if there is one. -/
def record (env : Env) (name : String) (value : Value) : Change Unit :=
  modify fun w =>
    match w.recordings with
    | [] => w
    | top :: rest => { w with recordings := (⟨env, name, value⟩ :: top) :: rest }

/-- Adds lookups, in order, to the expansion in progress, if there is one. -/
def recordAll (reads : List Lookup) : Change Unit :=
  modify fun w =>
    match w.recordings with
    | [] => w
    | top :: rest => { w with recordings := (reads.reverse ++ top) :: rest }

/-- Starts a recording; the result is the number of those around it. -/
def startRecording : Change Nat :=
  modifyGet fun w => (w.recordings.length, { w with recordings := [] :: w.recordings })

/-- The first lookup of each name in each frame. -/
def firstLookups (reads : List Lookup) : List Lookup :=
  let step := fun ((seen, kept) : Std.TreeMap Nat (List String) × Array Lookup) (l : Lookup) =>
    let names := seen.getD l.env.frame []
    if names.contains l.name then (seen, kept)
    else (seen.insert l.env.frame (l.name :: names), kept.push l)
  (reads.foldl step (∅, #[])).2.toList

/-- Drops all recordings but the outer `depth` ones. -/
def World.abandon (w : World) (depth : Nat) : World :=
  { w with recordings := w.recordings.drop (w.recordings.length - depth) }

/-- Ends the recording with `depth` others around it. The first lookup of each name is the result and
counts for the expansion around it as well. -/
def finishRecording (depth : Nat) : Change (List Lookup) :=
  modifyGet fun w =>
    match (w.abandon (depth + 1)).recordings with
    | top :: rest =>
      if rest.length < depth then ([], w)
      else
        let reads := firstLookups top.reverse
        let outer := match rest with
          | [] => []
          | next :: others => (reads.reverse ++ next) :: others
        (reads, { w with recordings := outer })
    | [] => ([], w)

/-- Does an act with a recording of its own, which is finished whether the act fails or not. -/
def recorded {α : Type} (act : Act α) : Act (α × List Lookup) := do
  let depth ← startRecording
  let result ← attempt act
  let reads ← finishRecording depth
  match result with
  | .ok a => return (a, reads)
  | .error h => throw h

theorem record_eq_recordAll (env : Env) (name : String) (value : Value) :
    record env name value = recordAll [⟨env, name, value⟩] := rfl

/-- Lookups go to the innermost recording, the last one first. -/
theorem recordAll_snd (reads : List Lookup) (w : World) :
    (recordAll reads w).2 = { w with recordings := w.recordings.modifyHead (reads.reverse ++ ·) } := by
  unfold recordAll
  rw [Change.modify_apply]
  dsimp only
  split
  · rename_i h
    have hsame : w.recordings.modifyHead (reads.reverse ++ ·) = w.recordings := by
      rw [h, List.modifyHead_nil]
    rw [hsame]
  · rename_i h
    rw [h, List.modifyHead_cons]

theorem World.recordings_abandon {w : World} {top : List Lookup} {outer : List (List Lookup)}
    (h : w.recordings = top :: outer) : (w.abandon (outer.length + 1)).recordings = top :: outer := by
  unfold abandon
  rw [h, List.length_cons, Nat.sub_self, List.drop_zero]

theorem finishRecording_of_abandon {w : World} {depth : Nat} {top : List Lookup}
    {rest : List (List Lookup)} (h : (w.abandon (depth + 1)).recordings = top :: rest)
    (hdepth : depth ≤ rest.length) :
    finishRecording depth w = (firstLookups top.reverse,
      { w with recordings := rest.modifyHead ((firstLookups top.reverse).reverse ++ ·) }) := by
  unfold finishRecording
  rw [Change.modifyGet_apply, h]
  cases rest <;> exact if_neg (Nat.not_lt.mpr hdepth)

/-- A recording that is not there is not finished. -/
theorem finishRecording_cases (depth : Nat) (w : World) :
    finishRecording depth w = ([], w) ∨
      ∃ top rest, (w.abandon (depth + 1)).recordings = top :: rest ∧ depth ≤ rest.length := by
  unfold finishRecording
  rw [Change.modifyGet_apply]
  cases h : (w.abandon (depth + 1)).recordings with
  | nil => exact .inl rfl
  | cons top rest =>
    rcases Nat.lt_or_ge rest.length depth with hlt | hle
    · exact .inl (if_pos hlt)
    · exact .inr ⟨top, rest, rfl, hle⟩

end EditableLisp
