import DocGraph.Command.Session

/-!
# DocGraph: the program

Reads what a run needs, and writes what it leaves behind: answers to the standard output, reports
and failures to the standard error.
-/

namespace DocGraph

/-- What can be read under a file name. -/
def readEntry (name : String) : IO FileEntry := do
  try
    return .file (← IO.FS.readBinFile name).toList
  catch e =>
    match e with
    | .noFileOrDirectory .. => return .missing
    | .permissionDenied .. => return .missing
    | _ => return .directory

/-- The settings file below the home directory. -/
def readConfig : IO FileEntry := do
  match ← IO.getEnv "HOME" with
  | none => return .missing
  | some home => readEntry (home ++ "/.config/structprobe/config.toml")

/-- What the document of a request is read from. -/
def readEnvironment (request : Option Request) : IO Environment := do
  match request with
  | some (.command command _ _) =>
    match command.source? with
    | some .standardInput =>
      let bytes ← (← IO.getStdin).readBinToEnd
      return ⟨bytes.toList, fun _ => .missing⟩
    | some (.file name) =>
      let entry ← readEntry name
      return ⟨[], fun _ => entry⟩
    | none => return ⟨[], fun _ => .missing⟩
  | _ => return ⟨[], fun _ => .missing⟩

end DocGraph

open DocGraph in
def main (args : List String) : IO UInt32 := do
  let env ← readEnvironment (Request.ofArguments? args)
  let session := Session.ofArguments env (← readConfig) args
  for event in session.log do
    IO.eprintln ("[" ++ event.level.name ++ " " ++ event.target ++ "] "
      ++ Text.visible event.message)
  for text in session.printed do
    IO.println text
  match session.failure with
  | some message => IO.eprintln ("Error: " ++ message)
  | none => pure ()
  return UInt32.ofNat session.status
