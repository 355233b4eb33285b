import ManifestShell.CommandLine.Run

/-! The program: it looks at the file system, hands over to `Arguments.run` and `Shell.enter`, and
prints what these give. -/
namespace ManifestShell.Console

/-- How many levels of directories are looked at. -/
def maxLevels : Nat := 8

def entriesBelow : Nat → String → IO (List (String × Bool))
  | 0, _ => return []
  | n + 1, path => do
    let here ← IO.currentDir
    let found ← try (here / path).readDir catch _ => pure #[]
    let below ← found.toList.mapM fun e => do
      let sub := path ++ "/" ++ e.fileName
      if ← (here / sub).isDir then return (sub, true) :: (← entriesBelow n sub)
      else return [(sub, false)]
    return below.flatten

def place (d : Disk) (path : Text) : List Text :=
  d.base path ++ (Disk.components path).filter (· ≠ ['.'])

/-- Adds an entry that is not there yet; the content of a file is left out. -/
def addEntry (d : Disk) (entry : String × Bool) : Disk :=
  let names := place d entry.1.toList
  if (d.node? names).isSome then d
  else d.put names (if entry.2 then .directory [] else .file .binary)

def addDirectory (d : Disk) (path : String) : IO Disk := do
  if ← ((← IO.currentDir) / path).isDir then
    return (← entriesBelow maxLevels path).foldl addEntry (addEntry d (path, true))
  else return d

def addFile (d : Disk) (path : Text) : IO Disk := do
  try
    let bytes ← IO.FS.readBinFile (String.ofList path)
    let content : Content := match String.fromUTF8? bytes with
      | some s => .text s.toList
      | none => .binary
    return d.put (place d path) (.file content)
  catch _ => return d

def environment (a : Arguments) : IO Environment := do
  let home := (← IO.getEnv "HOME").getD "."
  let here ← IO.currentDir
  let d ← addDirectory ⟨[], Disk.components here.toString.toList⟩ "."
  let d ← match a.root with
    | some root => addDirectory d (String.ofList root)
    | none => pure d
  let d ← addFile d (a.config.getD (Settings.defaultPath home.toList))
  let env : Environment := ⟨d, home.toList⟩
  match a.settings env with
  | .ok s => return { env with disk := ← addFile d s.history.filePath }
  | .error _ => return env

def printOut (t : Text) : IO Unit := do
  let out ← IO.getStdout
  out.putStr (String.ofList t)
  out.flush

def printErr (t : Text) : IO Unit := do (← IO.getStderr).putStr (String.ofList t)

def report (e : ShellError) : IO UInt32 := do
  printErr ("Error: ".toList ++ e.message ++ ['\n'])
  return 1

/-- Enters the lines of the input until it or the session ends. -/
partial def interact (sh : Shell) : IO Shell := do
  if !sh.session.running then return sh
  let line ← (← IO.getStdin).getLine
  if line.isEmpty then return sh
  let (sh, out, err) := sh.enter (line.toList.takeWhile (· != '\n'))
  printOut out
  printErr err
  interact sh

def saveHistory (s : HistorySettings) (h : History) : IO Unit := do
  if s.persist then
    try
      if let some parent := Disk.parent? s.filePath then
        IO.FS.createDirAll (String.ofList parent)
      IO.FS.writeFile (String.ofList s.filePath) (String.ofList (History.fileText h.entries))
    catch _ => return ()

def startShell (env : Environment) (a : Arguments) (s : Settings) : IO UInt32 := do
  match (Shell.start env a s).2 with
  | .error e => report e
  | .ok sh =>
    let sh ← interact sh
    saveHistory s.history sh.history
    if !a.quiet then printOut "Bye!\n"
    return 0

def refuse : UsageError → IO UInt32
  | .helpWanted => do
    printOut "Usage: mediaxml-shell [OPTIONS] [COMMAND]\n"
    return 0
  | .versionWanted => do
    printOut ("mediaxml-shell ".toList ++ versionText ++ ['\n'])
    return 0
  | e => do
    printErr ("error: ".toList ++ e.message ++ ['\n'])
    return 2

end ManifestShell.Console

open ManifestShell in
def main (args : List String) : IO UInt32 := do
  match Arguments.parse (args.map String.toList) with
  | .error e => Console.refuse e
  | .ok a =>
    let env ← Console.environment a
    let run := a.run env
    Console.printErr run.err
    Console.printOut run.out
    match run.outcome with
    | .unconfigured e => Console.report (.config e)
    | .failed _ e => Console.report e
    | .done _ => return 0
    | .interactive s => Console.startShell env a s
