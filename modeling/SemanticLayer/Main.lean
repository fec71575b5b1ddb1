import SemanticLayer.Config
import SemanticLayer.Manifest.Store
import SemanticLayer.Processor

/-! # Command line

Reads one query per line and prints the SQL that the data source runs for it. The environment names the
manifest, the data source and the session.
-/

namespace SemanticLayer.CommandLine

def variableNames : List String :=
  ["MANIFEST_PATH", "DATA_SOURCE", "SQLITE_SOURCE_PATH", "SESSION_CATALOG", "SESSION_SCHEMA"]

def environment : IO Environment := do
  let values ← variableNames.mapM fun name => do return (name, ← IO.getEnv name)
  return fun name => (values.lookup name).join

def readFile? (path : String) : IO (Option String) := do
  try return some (← IO.FS.readFile path)
  catch _ => return none

def backend? : String → Option Backend
  | "postgres" => some .postgres
  | "sqlite" => some .sqlite
  | _ => none

def session? (config : Config) : Option Session := do
  return ⟨← config.sessionCatalog, ← config.sessionSchema⟩

def processor (config : Config) (document : Option String) : Except String Processor := do
  let some backend := backend? config.dataSource
    | throw ("Unknown data source: " ++ config.dataSource)
  let store ← match ManifestStore.ofDocument document with
    | .ok store => pure store
    | .error _ => throw ("Failed to load manifest " ++ config.manifestPath)
  match Layer.ofManifest store.manifest with
  | .ok layer => return { layer, session := session? config, backend }
  | .error e => throw e.message

def answerLine (p : Processor) (line : String) : IO Unit := do
  let sql := Text.trim line
  if sql.isEmpty then return ()
  match p.sourceSql sql with
  | .ok compiled => IO.println compiled
  | .error e => IO.eprintln ("Query failed: " ++ e.message)

partial def answerLines (p : Processor) (input : IO.FS.Stream) : IO Unit := do
  let line ← input.getLine
  if line.isEmpty then return ()
  answerLine p line
  answerLines p input

end SemanticLayer.CommandLine

open SemanticLayer CommandLine in
def main : IO UInt32 := do
  let config := Config.ofEnvironment (← environment)
  match processor config (← readFile? config.manifestPath) with
  | .error message =>
    IO.eprintln message
    return 1
  | .ok p =>
    answerLines p (← IO.getStdin)
    return 0
