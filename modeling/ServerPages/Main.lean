import ServerPages.Check.Run

/-! The command line: a check of files on disk. -/

namespace ServerPages

def usage : String :=
  "Usage: aspx-check [--workspace FOLDER] [--config FILE] [--output FORMAT] [--ignore PATTERN]\n" ++
  "                  [--emit-tree] [--timings]\n\n" ++
  "Formats: human, human-verbose, json, machine\n"

def readDisk (path : Text) : IO (Except ReadFault Bytes) := do
  let file := (← IO.currentDir) / String.ofList path
  if ← file.isDir then return .error .isFolder
  try
    return .ok (← IO.FS.readBinFile file).toList
  catch
    | .noFileOrDirectory .. => return .error .missing
    | .inappropriateType .. => return .error .notFolder
    | e => throw e

partial def filesOnDisk (folder : Text) (path : List Text) : IO (List Text) := do
  let here := (← IO.currentDir) / String.ofList (Path.join folder (Text.join ['/'] path))
  let entries ← try here.readDir catch _ => pure #[]
  let found ← entries.toList.mapM fun entry => do
    let inner := path ++ [entry.fileName.toList]
    match (← entry.path.symlinkMetadata).type with
    | .dir => filesOnDisk folder inner
    | .file => return [Text.join ['/'] inner]
    | _ => return []
  return found.flatten

/-- A check with its times in milliseconds; whether it found problems. -/
def checkDisk (options : Options) : ExceptT Failure IO Bool := do
  let started ← IO.monoMsNow
  let root := Check.workspace options (← IO.currentDir).toString.toList
  let configFile := Check.configPath options root
  let config ← Check.loadConfig options configFile (← readDisk configFile)
  let ignored ← Check.ignoreSet options config
  let scanStarted ← IO.monoMsNow
  let pages := Check.select config.fileExtensions ignored (← filesOnDisk root [])
  let parseStarted ← IO.monoMsNow
  let lookup := Registered.get? config.registry
  let reports ← pages.mapM fun path => do
    Check.reportOn lookup path (← readDisk (Path.join root path))
  let outcome := Check.outcome options reports
  (← IO.getStderr).putStr (String.ofList outcome.notes)
  (← IO.getStdout).putStr (String.ofList outcome.output)
  if options.timings then
    let ended ← IO.monoMsNow
    IO.eprintln ("file scan: " ++ toString (parseStarted - scanStarted) ++ "ms (" ++
      toString pages.length ++ " files)")
    IO.eprintln ("parse phase: " ++ toString (ended - parseStarted) ++ "ms")
    IO.eprintln ("total: " ++ toString (ended - started) ++ "ms")
  return outcome.summary.failed

end ServerPages

/-- 0 when nothing is wrong, 1 when problems were found or the check failed, 2 when the arguments
cannot be followed. -/
def main (arguments : List String) : IO UInt32 := do
  match ServerPages.Options.ofArguments (arguments.map String.toList) with
  | .ok options =>
    match ← (ServerPages.checkDisk options).run with
    | .ok failed => return if failed then 1 else 0
    | .error failure =>
      IO.eprintln ("Error: " ++ String.ofList failure.message)
      return 1
  | .error .displayHelp =>
    IO.print ServerPages.usage
    return 0
  | .error .displayVersion =>
    IO.println "aspx-check"
    return 0
  | .error _ =>
    IO.eprint ServerPages.usage
    return 2
