import SemanticLayer.Text.Case

/-! # Keywords

The words that may not stand where a name could be taken for an alias, and the words that are
keywords at all.
-/

namespace SemanticLayer.Sql

/-- Words that end a relation in a FROM clause. -/
def reservedForTables : List String :=
  ["WITH", "EXPLAIN", "ANALYZE", "SELECT", "WHERE", "GROUP", "SORT", "HAVING", "ORDER", "PIVOT",
   "UNPIVOT", "TOP", "LATERAL", "VIEW", "LIMIT", "OFFSET", "FETCH", "UNION", "EXCEPT", "INTERSECT",
   "ON", "JOIN", "INNER", "CROSS", "FULL", "LEFT", "RIGHT", "NATURAL", "USING", "CLUSTER",
   "DISTRIBUTE", "GLOBAL", "OUTER", "SET", "QUALIFY", "WINDOW", "END", "FOR", "PARTITION",
   "PREWHERE", "SETTINGS", "FORMAT", "START", "CONNECT", "MATCH_RECOGNIZE"]

/-- Words that end an item of a select list. -/
def reservedForColumns : List String :=
  ["WITH", "EXPLAIN", "ANALYZE", "SELECT", "WHERE", "GROUP", "SORT", "HAVING", "ORDER", "TOP",
   "LATERAL", "VIEW", "LIMIT", "OFFSET", "FETCH", "UNION", "EXCEPT", "INTERSECT", "CLUSTER",
   "DISTRIBUTE", "RETURNING", "FROM", "INTO", "END"]

def allKeywords : List String :=
  ["ABORT", "ABS", "ABSOLUTE", "ACCESS", "ACTION", "ADD", "ADMIN", "AFTER", "AGAINST",
   "AGGREGATION", "ALL", "ALLOCATE", "ALTER", "ALWAYS", "ANALYZE", "AND", "ANTI", "ANY", "APPLY",
   "ARCHIVE", "ARE", "ARRAY", "ARRAY_MAX_CARDINALITY", "AS", "ASC", "ASENSITIVE", "ASOF", "ASSERT",
   "ASYMMETRIC", "AT", "ATOMIC", "ATTACH", "AUTHORIZATION", "AUTO", "AUTOINCREMENT",
   "AUTO_INCREMENT", "AVG", "AVRO", "BACKWARD", "BASE64", "BEFORE", "BEGIN", "BEGIN_FRAME",
   "BEGIN_PARTITION", "BERNOULLI", "BETWEEN", "BIGDECIMAL", "BIGINT", "BIGNUMERIC", "BINARY",
   "BINDING", "BLOB", "BLOOMFILTER", "BOOL", "BOOLEAN", "BOTH", "BROWSE", "BTREE",
   "BUFFER_USAGE_LIMIT", "BY", "BYPASSRLS", "BYTEA", "BYTES", "CACHE", "CALL", "CALLED",
   "CARDINALITY", "CASCADE", "CASCADED", "CASE", "CAST", "CEIL", "CEILING", "CENTURY", "CHAIN",
   "CHANGE", "CHANNEL", "CHAR", "CHARACTER", "CHARACTERS", "CHARACTER_LENGTH", "CHARSET",
   "CHAR_LENGTH", "CHECK", "CLOB", "CLONE", "CLOSE", "CLUSTER", "CLUSTERED", "COALESCE", "COLLATE",
   "COLLATION", "COLLECT", "COLUMN", "COLUMNS", "COLUMNSTORE", "COMMENT", "COMMIT", "COMMITTED",
   "COMPRESSION", "COMPUTE", "CONCURRENTLY", "CONDITION", "CONFLICT", "CONNECT", "CONNECTION",
   "CONSTRAINT", "CONTAINS", "CONTINUE", "CONVERT", "COPY", "COPY_OPTIONS", "CORR", "CORRESPONDING",
   "COUNT", "COVAR_POP", "COVAR_SAMP", "CREATE", "CREATEDB", "CREATEROLE", "CREDENTIALS", "CROSS",
   "CSV", "CUBE", "CUME_DIST", "CURRENT", "CURRENT_CATALOG", "CURRENT_DATE",
   "CURRENT_DEFAULT_TRANSFORM_GROUP", "CURRENT_PATH", "CURRENT_ROLE", "CURRENT_ROW",
   "CURRENT_SCHEMA", "CURRENT_TIME", "CURRENT_TIMESTAMP", "CURRENT_TRANSFORM_GROUP_FOR_TYPE",
   "CURRENT_USER", "CURSOR", "CYCLE", "DATA", "DATABASE", "DATA_RETENTION_TIME_IN_DAYS", "DATE",
   "DATE32", "DATETIME", "DATETIME64", "DAY", "DAYOFWEEK", "DAYOFYEAR", "DAYS", "DEALLOCATE", "DEC",
   "DECADE", "DECIMAL", "DECLARE", "DEFAULT", "DEFAULT_DDL_COLLATION", "DEFERRABLE", "DEFERRED",
   "DEFINE", "DEFINED", "DELAYED", "DELETE", "DELIMITED", "DELIMITER", "DELTA", "DENSE_RANK",
   "DEREF", "DESC", "DESCRIBE", "DETACH", "DETAIL", "DETERMINISTIC", "DIRECTORY", "DISABLE",
   "DISCARD", "DISCONNECT", "DISTINCT", "DISTRIBUTE", "DIV", "DO", "DOUBLE", "DOW", "DOY", "DROP",
   "DRY", "DUPLICATE", "DYNAMIC", "EACH", "ELEMENT", "ELEMENTS", "ELSE", "EMPTY", "ENABLE",
   "ENABLE_SCHEMA_EVOLUTION", "ENCODING", "ENCRYPTION", "END", "END-EXEC", "ENDPOINT", "END_FRAME",
   "END_PARTITION", "ENFORCED", "ENGINE", "ENUM", "EPHEMERAL", "EPOCH", "EQUALS", "ERROR", "ESCAPE",
   "ESCAPED", "EVENT", "EVERY", "EXCEPT", "EXCEPTION", "EXCHANGE", "EXCLUDE", "EXCLUSIVE", "EXEC",
   "EXECUTE", "EXISTS", "EXP", "EXPANSION", "EXPLAIN", "EXPLICIT", "EXPORT", "EXTENDED",
   "EXTENSION", "EXTERNAL", "EXTRACT", "FAIL", "FALSE", "FETCH", "FIELDS", "FILE", "FILES",
   "FILE_FORMAT", "FILL", "FILTER", "FINAL", "FIRST", "FIRST_VALUE", "FIXEDSTRING", "FLOAT",
   "FLOAT32", "FLOAT4", "FLOAT64", "FLOAT8", "FLOOR", "FLUSH", "FOLLOWING", "FOR", "FORCE",
   "FORCE_NOT_NULL", "FORCE_NULL", "FORCE_QUOTE", "FOREIGN", "FORMAT", "FORMATTED", "FORWARD",
   "FRAME_ROW", "FREE", "FREEZE", "FROM", "FSCK", "FULL", "FULLTEXT", "FUNCTION", "FUNCTIONS",
   "FUSION", "GENERAL", "GENERATE", "GENERATED", "GEOGRAPHY", "GET", "GLOBAL", "GRANT", "GRANTED",
   "GRAPHVIZ", "GROUP", "GROUPING", "GROUPS", "HASH", "HAVING", "HEADER", "HIGH_PRIORITY",
   "HISTORY", "HIVEVAR", "HOLD", "HOUR", "HOURS", "IDENTITY", "IDENTITY_INSERT", "IF", "IGNORE",
   "ILIKE", "IMMEDIATE", "IMMUTABLE", "IN", "INCLUDE", "INCLUDE_NULL_VALUES", "INCREMENT", "INDEX",
   "INDICATOR", "INHERIT", "INITIALLY", "INNER", "INOUT", "INPATH", "INPUT", "INPUTFORMAT",
   "INSENSITIVE", "INSERT", "INSTALL", "INSTEAD", "INT", "INT128", "INT16", "INT2", "INT256",
   "INT32", "INT4", "INT64", "INT8", "INTEGER", "INTERPOLATE", "INTERSECT", "INTERSECTION",
   "INTERVAL", "INTO", "IS", "ISODOW", "ISOLATION", "ISOWEEK", "ISOYEAR", "ITEMS", "JAR", "JOIN",
   "JSON", "JSONB", "JSONFILE", "JSON_TABLE", "JULIAN", "KEY", "KEYS", "KILL", "LAG", "LANGUAGE",
   "LARGE", "LAST", "LAST_VALUE", "LATERAL", "LEAD", "LEADING", "LEFT", "LEVEL", "LIKE",
   "LIKE_REGEX", "LIMIT", "LINES", "LISTAGG", "LN", "LOAD", "LOCAL", "LOCALTIME", "LOCALTIMESTAMP",
   "LOCATION", "LOCK", "LOCKED", "LOGIN", "LOGS", "LOWCARDINALITY", "LOWER", "LOW_PRIORITY",
   "MACRO", "MANAGEDLOCATION", "MAP", "MASKING", "MATCH", "MATCHED", "MATCHES", "MATCH_CONDITION",
   "MATCH_RECOGNIZE", "MATERIALIZED", "MAX", "MAXVALUE", "MAX_DATA_EXTENSION_TIME_IN_DAYS",
   "MEASURES", "MEDIUMINT", "MEMBER", "MERGE", "METADATA", "METHOD", "MICROSECOND", "MICROSECONDS",
   "MILLENIUM", "MILLENNIUM", "MILLISECOND", "MILLISECONDS", "MIN", "MINUTE", "MINVALUE", "MOD",
   "MODE", "MODIFIES", "MODIFY", "MODULE", "MONTH", "MSCK", "MULTISET", "MUTATION", "NAME",
   "NANOSECOND", "NANOSECONDS", "NATIONAL", "NATURAL", "NCHAR", "NCLOB", "NESTED", "NEW", "NEXT",
   "NO", "NOBYPASSRLS", "NOCREATEDB", "NOCREATEROLE", "NOINHERIT", "NOLOGIN", "NONE",
   "NOREPLICATION", "NORMALIZE", "NOSCAN", "NOSUPERUSER", "NOT", "NOTHING", "NOWAIT",
   "NO_WRITE_TO_BINLOG", "NTH_VALUE", "NTILE", "NULL", "NULLABLE", "NULLIF", "NULLS", "NUMERIC",
   "NVARCHAR", "OBJECT", "OCCURRENCES_REGEX", "OCTETS", "OCTET_LENGTH", "OF", "OFFSET", "OFFSETS",
   "OLD", "OMIT", "ON", "ONE", "ONLY", "OPEN", "OPENJSON", "OPERATOR", "OPTIMIZE",
   "OPTIMIZER_COSTS", "OPTION", "OPTIONS", "OR", "ORC", "ORDER", "ORDINALITY", "OUT", "OUTER",
   "OUTPUTFORMAT", "OVER", "OVERFLOW", "OVERLAPS", "OVERLAY", "OVERWRITE", "OWNED", "OWNER",
   "PARALLEL", "PARAMETER", "PARQUET", "PART", "PARTITION", "PARTITIONED", "PARTITIONS", "PASSWORD",
   "PAST", "PATH", "PATTERN", "PER", "PERCENT", "PERCENTILE_CONT", "PERCENTILE_DISC",
   "PERCENT_RANK", "PERIOD", "PERSISTENT", "PIVOT", "PLACING", "PLAN", "PLANS", "POLICY", "PORTION",
   "POSITION", "POSITION_REGEX", "POWER", "PRAGMA", "PRECEDES", "PRECEDING", "PRECISION", "PREPARE",
   "PRESERVE", "PREWHERE", "PRIMARY", "PRIOR", "PRIVILEGES", "PROCEDURE", "PROGRAM", "PROJECTION",
   "PURGE", "QUALIFY", "QUARTER", "QUERY", "QUOTE", "RANGE", "RANK", "RAW", "RCFILE", "READ",
   "READS", "READ_ONLY", "REAL", "RECURSIVE", "REF", "REFERENCES", "REFERENCING", "REGCLASS",
   "REGEXP", "REGR_AVGX", "REGR_AVGY", "REGR_COUNT", "REGR_INTERCEPT", "REGR_R2", "REGR_SLOPE",
   "REGR_SXX", "REGR_SXY", "REGR_SYY", "RELATIVE", "RELAY", "RELEASE", "REMOTE", "RENAME", "REORG",
   "REPAIR", "REPEATABLE", "REPLACE", "REPLICA", "REPLICATION", "RESET", "RESPECT", "RESTART",
   "RESTRICT", "RESTRICTED", "RESULT", "RESULTSET", "RETAIN", "RETURN", "RETURNING", "RETURNS",
   "REVOKE", "RIGHT", "RLIKE", "ROLE", "ROLES", "ROLLBACK", "ROLLUP", "ROOT", "ROW", "ROWID",
   "ROWS", "ROW_FORMAT", "ROW_NUMBER", "RULE", "RUN", "SAFE_CAST", "SAVEPOINT", "SCHEMA", "SCHEMAS",
   "SCOPE", "SCROLL", "SEARCH", "SECOND", "SECRET", "SECURITY", "SELECT", "SEMI", "SENSITIVE",
   "SEPARATOR", "SEQUENCE", "SEQUENCEFILE", "SEQUENCES", "SERDE", "SERDEPROPERTIES", "SERIALIZABLE",
   "SESSION", "SESSION_USER", "SET", "SETS", "SETTINGS", "SHARE", "SHOW", "SIMILAR", "SKIP", "SLOW",
   "SMALLINT", "SNAPSHOT", "SOME", "SORT", "SORTED", "SOURCE", "SPATIAL", "SPECIFIC",
   "SPECIFICTYPE", "SQL", "SQLEXCEPTION", "SQLSTATE", "SQLWARNING", "SQRT", "STABLE", "STAGE",
   "START", "STATEMENT", "STATIC", "STATISTICS", "STATUS", "STDDEV_POP", "STDDEV_SAMP", "STDIN",
   "STDOUT", "STEP", "STORAGE_INTEGRATION", "STORED", "STRICT", "STRING", "STRUCT", "SUBMULTISET",
   "SUBSTRING", "SUBSTRING_REGEX", "SUCCEEDS", "SUM", "SUPER", "SUPERUSER", "SWAP", "SYMMETRIC",
   "SYNC", "SYSTEM", "SYSTEM_TIME", "SYSTEM_USER", "TABLE", "TABLES", "TABLESAMPLE", "TAG",
   "TARGET", "TBLPROPERTIES", "TEMP", "TEMPORARY", "TERMINATED", "TEXT", "TEXTFILE", "THEN", "TIES",
   "TIME", "TIMESTAMP", "TIMESTAMPTZ", "TIMETZ", "TIMEZONE", "TIMEZONE_ABBR", "TIMEZONE_HOUR",
   "TIMEZONE_MINUTE", "TIMEZONE_REGION", "TINYINT", "TO", "TOP", "TOTALS", "TRAILING",
   "TRANSACTION", "TRANSIENT", "TRANSLATE", "TRANSLATE_REGEX", "TRANSLATION", "TREAT", "TRIGGER",
   "TRIM", "TRIM_ARRAY", "TRUE", "TRUNCATE", "TRY_CAST", "TRY_CONVERT", "TUPLE", "TYPE", "UESCAPE",
   "UINT128", "UINT16", "UINT256", "UINT32", "UINT64", "UINT8", "UNBOUNDED", "UNCACHE",
   "UNCOMMITTED", "UNION", "UNIQUE", "UNKNOWN", "UNLOAD", "UNLOCK", "UNLOGGED", "UNMATCHED",
   "UNNEST", "UNPIVOT", "UNSAFE", "UNSIGNED", "UNTIL", "UPDATE", "UPPER", "URL", "USAGE", "USE",
   "USER", "USER_RESOURCES", "USING", "UUID", "VACUUM", "VALID", "VALIDATION_MODE", "VALUE",
   "VALUES", "VALUE_OF", "VARBINARY", "VARCHAR", "VARIABLES", "VARYING", "VAR_POP", "VAR_SAMP",
   "VERBOSE", "VERSION", "VERSIONING", "VIEW", "VIEWS", "VIRTUAL", "VOLATILE", "WAREHOUSE", "WEEK",
   "WHEN", "WHENEVER", "WHERE", "WIDTH_BUCKET", "WINDOW", "WITH", "WITHIN", "WITHOUT",
   "WITHOUT_ARRAY_WRAPPER", "WORK", "WRITE", "XML", "XOR", "YEAR", "ZONE", "ZORDER"]

def isKeyword (word : String) : Bool := allKeywords.contains (Text.upperAscii word)

end SemanticLayer.Sql
