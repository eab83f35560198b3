import EditableLisp.World

/-!
# Files

Programs work in one directory. It has no subdirectories, and of the directories above it and of the root
of all paths nothing is known but what is written there. A path is walked component by component, and only
the last one may name a file. A file may also be known under a longer path; then that very path leads to
it.

This is where the model of `slurp` and `spit` ends: a path that leads through a subdirectory, or to what is no plain
file, fails here, while a file system that has the directory may serve it.
-/

namespace EditableLisp

/-- A name in a directory; the path of the working directory is empty, and others end with a slash. -/
structure Entry where
  directory : String
  name : String
deriving DecidableEq, Repr

/-- The shortest path of an entry. -/
def Entry.path (e : Entry) : String := e.directory ++ e.name

/-- What a path leads to. -/
inductive Target where
  | directory
  /-- An entry, with a slash after its name or not. -/
  | entry (e : Entry) (slash : Bool)
  /-- Something inside an entry. -/
  | inside (e : Entry)
  | problem (p : FileProblem)
deriving DecidableEq, Repr

/-- The most bytes of a name. -/
def nameMax : Nat := 255

/-- The most bytes of a path. -/
def pathMax : Nat := 4095

namespace Target

/-- The directory above another one; the root is above itself. -/
def above (directory : String) : String := if directory == "/" then "/" else directory ++ "../"

/-- Walks along components that are not empty. -/
def walk (directory : String) (slash : Bool) : List String → Target
  | [] => .directory
  | c :: rest =>
    if c == "." then walk directory slash rest
    else if c == ".." then walk (above directory) slash rest
    else if rest.isEmpty then .entry ⟨directory, c⟩ slash
    else .inside ⟨directory, c⟩

/-- What a path leads to. -/
def ofPath (path : String) : Target :=
  if path.isEmpty then .problem .missing
  else if path.contains '\x00' then .problem .badName
  else if pathMax < path.utf8ByteSize then .problem .nameTooLong
  else
    let start := if path.startsWith "/" then "/" else ""
    walk start (path.endsWith "/") ((path.splitOn "/").filter fun c => !c.isEmpty)

end Target

namespace World

/-- The text of a file of the directory. -/
def file? (w : World) (name : String) : Option String :=
  (w.files.find? fun f => f.1 == name).map Prod.snd

/-- The text of the file at an entry, if there is one. -/
def look (w : World) (e : Entry) : Except FileProblem (Option String) :=
  if nameMax < e.name.utf8ByteSize then .error .nameTooLong else .ok (w.file? e.path)

/-- What keeps a walk from going on behind an entry. -/
def barrier (w : World) (e : Entry) : FileProblem :=
  match w.look e with
  | .error p => p
  | .ok (some _) => .notDirectory
  | .ok none => .missing

/-- The text of the file that a path leads to by its components. -/
def readTarget (w : World) (path : String) : Except FileProblem String :=
  match Target.ofPath path with
  | .problem p => .error p
  | .directory => .error .directory
  | .inside e => .error (w.barrier e)
  | .entry e true => .error (w.barrier e)
  | .entry e false =>
    match w.look e with
    | .error p => .error p
    | .ok (some text) => .ok text
    | .ok none => .error .missing

/-- The text of the file at a path. -/
def readFile (w : World) (path : String) : Except FileProblem String :=
  match w.file? path with
  | some text => .ok text
  | none => w.readTarget path

/-- The world with a file of the directory written. -/
def putFile (w : World) (name text : String) : World :=
  { w with files := (name, text) :: w.files.filter fun f => f.1 != name }

/-- A file that was written is read back, and the other files are as they were. -/
theorem file?_putFile (w : World) (name text other : String) :
    (w.putFile name text).file? other = if name = other then some text else w.file? other := by
  simp only [file?, putFile, List.find?_cons]
  by_cases h : name = other
  · simp [h]
  · rw [if_neg h]
    have hb : (name == other) = false := beq_eq_false_iff_ne.mpr h
    simp only [hb]
    congr 1
    induction w.files with
    | nil => rfl
    | cons f rest ih =>
      rw [List.filter_cons]
      by_cases hf : f.1 = name
      · have hne : (f.1 == other) = false := beq_eq_false_iff_ne.mpr (fun e => h (hf.symm.trans e))
        rw [if_neg (by simp [hf]), ih, List.find?_cons, hne]
      · rw [if_pos (by simp [hf]), List.find?_cons, List.find?_cons, ih]

/-- The world with the file at a path written; a name with a slash after it stands for a directory,
whatever there is. -/
def writeFile (w : World) (path text : String) : Except FileProblem World :=
  match Target.ofPath path with
  | .problem p => .error p
  | .directory => .error .directory
  | .inside e => .error (w.barrier e)
  | .entry _ true => .error .directory
  | .entry e false =>
    match w.look e with
    | .error p => .error p
    | .ok _ => .ok (w.putFile e.path text)

end World

/-- Reads the file at a path. -/
def readFile (path : String) : Act String := do
  match (← get).readFile path with
  | .ok text => pure text
  | .error p => fail (.file path p)

/-- Writes the file at a path. -/
def writeFile (path text : String) : Act Unit := do
  match (← get).writeFile path text with
  | .ok w => set w
  | .error p => fail (.file path p)

end EditableLisp
