import EditableLisp.CommandLine

/-!
# The program

Runs the command that its arguments name. An evaluation does not touch the disk: when it fails for want of a
file that is there, the file is read and the command is run again from the start, and what it has written
goes to the disk once it has ended.
-/

namespace EditableLisp

/-- The most steps of an evaluation. -/
def stepLimit : Nat := Number.tenTo 15

/-- Reads the file that a failure asks for, unless it is known already. -/
def fetch (failure : Option CommandFailure) (known : World) : IO (Option World) := do
  match failure.bind CommandFailure.missingFile? with
  | none => return none
  | some path =>
    if (known.file? path).isSome then return none
    else
      match ← (IO.FS.readFile path).toBaseIO with
      | .ok text => return some (known.putFile path text)
      | .error _ => return none

/-- Runs a command in a world, to which the files that it asks for are added one by one. -/
partial def execute (c : Command) (start : World) : IO (Option CommandFailure × World) := do
  let (failure, last) := c.run stepLimit start
  match ← fetch failure start with
  | some start => execute c start
  | none =>
    for (path, text) in last.files do
      unless start.file? path == some text do IO.FS.writeFile path text
    return (failure, last)

end EditableLisp

/-- Runs a command and ends with its exit code. -/
def main (args : List String) : IO UInt32 := do
  let (failure, last) ← EditableLisp.execute (.ofArguments args) .full
  let reply := EditableLisp.Reply.ofEnd failure last
  IO.print reply.output
  IO.eprint reply.errors
  return UInt32.ofNat reply.code
