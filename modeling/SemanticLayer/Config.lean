import SemanticLayer.Number.Decimal

/-! # Configuration

Settings come from named variables. A variable that is not set takes its default; one that cannot be
read is an error that names it.
-/

namespace SemanticLayer

abbrev Environment := String → Option String

structure Config where
  manifestPath : String
  dataSource : String
  sqliteSourcePath : String
  sessionCatalog : Option String
  sessionSchema : Option String
  deriving Repr, DecidableEq

structure PostgresConfig where
  user : String
  password : String
  host : String
  dbname : String
  deriving Repr, DecidableEq

structure CacheConfig where
  localStorePath : String := "cache.db"
  maxConcurrentTasks : Nat := 10
  maxConcurrentMetadataQueries : Nat := 10
  memoryLimitBytes : Nat := 1073741824
  /-- The share of the memory limit one cached table may take. -/
  maxTableSizeRatio : Number.Double := .finite false (Nat.pow 2 52) (-53)
  retryDelaySecs : Nat := 60
  deriving Repr, DecidableEq

structure ConfigError where
  variableName : String
  deriving Repr, DecidableEq

def Environment.text (env : Environment) (name default : String) : String := (env name).getD default

def Environment.read {α : Type} (env : Environment) (read? : String → Option α) (name : String)
    (default : α) : Except ConfigError α :=
  match env name with
  | none => .ok default
  | some text =>
    match read? text with
    | some a => .ok a
    | none => .error ⟨name⟩

def Config.ofEnvironment (env : Environment) : Config where
  manifestPath := env.text "MANIFEST_PATH" "mdl.json"
  dataSource := env.text "DATA_SOURCE" "postgres"
  sqliteSourcePath := env.text "SQLITE_SOURCE_PATH" "source.db"
  sessionCatalog := env "SESSION_CATALOG"
  sessionSchema := env "SESSION_SCHEMA"

def PostgresConfig.ofEnvironment (env : Environment) : PostgresConfig where
  user := env.text "POSTGRES_USER" "postgres"
  password := env.text "POSTGRES_PASSWORD" "postgres"
  host := env.text "POSTGRES_HOST" "localhost:5432"
  dbname := env.text "POSTGRES_DB" "main"

namespace CacheConfig

def ofEnvironment (env : Environment) : Except ConfigError CacheConfig := do
  let default : CacheConfig := {}
  let maxConcurrentTasks ←
    env.read Number.readWord? "CACHE_MAX_CONCURRENT_TASKS" default.maxConcurrentTasks
  let maxConcurrentMetadataQueries ←
    env.read Number.readWord? "CACHE_MAX_CONCURRENT_METADATA_QUERIES"
      default.maxConcurrentMetadataQueries
  let memoryLimitBytes ←
    env.read Number.readWord? "CACHE_MEMORY_LIMIT_BYTES" default.memoryLimitBytes
  let maxTableSizeRatio ←
    env.read Number.Double.read? "CACHE_MAX_TABLE_SIZE_RATIO" default.maxTableSizeRatio
  let retryDelaySecs ←
    env.read Number.readWord? "CACHE_TASK_RETRY_DELAY_SECS" default.retryDelaySecs
  return { localStorePath := env.text "CACHE_LOCAL_STORE_PATH" default.localStorePath,
           maxConcurrentTasks, maxConcurrentMetadataQueries, memoryLimitBytes, maxTableSizeRatio,
           retryDelaySecs }

def tableSizeLimit (c : CacheConfig) : Nat :=
  ((Number.Double.ofNat c.memoryLimitBytes).mul c.maxTableSizeRatio).truncateTo (Nat.pow 2 64 - 1)

end CacheConfig

end SemanticLayer
