import SqlCanon.Lexeme
import SqlCanon.Text.Utf8

/-!
# Reserved words

The reserved words of MySQL 8.0 in upper case. Some of them also name a function.
-/

namespace SqlCanon.Reserved

def functionNames : List String :=
  ["CHAR", "CONVERT", "CUME_DIST", "CURRENT_DATE", "CURRENT_TIME", "CURRENT_TIMESTAMP",
   "CURRENT_USER", "DATABASE", "DENSE_RANK", "FIRST_VALUE", "GROUPING", "IF", "INSERT", "INTERVAL",
   "JSON_TABLE", "LAG", "LAST_VALUE", "LEAD", "LEFT", "LOCALTIME", "LOCALTIMESTAMP", "MATCH",
   "MOD", "NTH_VALUE", "NTILE", "PERCENT_RANK", "RANK", "REPEAT", "REPLACE", "RIGHT", "ROW_NUMBER",
   "SCHEMA", "UTC_DATE", "UTC_TIME", "UTC_TIMESTAMP", "VALUES"]

def otherNames : List String :=
  ["ACCESSIBLE", "ADD", "ALL", "ALTER", "ANALYZE", "AND", "AS", "ASC", "ASENSITIVE", "BEFORE",
   "BETWEEN", "BIGINT", "BINARY", "BLOB", "BOTH", "BY", "CALL", "CASCADE", "CASE", "CHANGE",
   "CHARACTER", "CHECK", "COLLATE", "COLUMN", "CONDITION", "CONSTRAINT", "CONTINUE", "CREATE",
   "CROSS", "CUBE", "CURSOR", "DATABASES", "DAY_HOUR", "DAY_MICROSECOND", "DAY_MINUTE",
   "DAY_SECOND", "DEC", "DECIMAL", "DECLARE", "DEFAULT", "DELAYED", "DELETE", "DESC", "DESCRIBE",
   "DETERMINISTIC", "DISTINCT", "DISTINCTROW", "DIV", "DOUBLE", "DROP", "DUAL", "EACH", "ELSE",
   "ELSEIF", "EMPTY", "ENCLOSED", "ESCAPED", "EXCEPT", "EXISTS", "EXIT", "EXPLAIN", "FALSE",
   "FETCH", "FLOAT", "FLOAT4", "FLOAT8", "FOR", "FORCE", "FOREIGN", "FROM", "FULLTEXT", "FUNCTION",
   "GENERATED", "GET", "GRANT", "GROUP", "GROUPS", "HAVING", "HIGH_PRIORITY", "HOUR_MICROSECOND",
   "HOUR_MINUTE", "HOUR_SECOND", "IGNORE", "IN", "INDEX", "INFILE", "INNER", "INOUT",
   "INSENSITIVE", "INT", "INT1", "INT2", "INT3", "INT4", "INT8", "INTEGER", "INTERSECT", "INTO",
   "IO_AFTER_GTIDS", "IO_BEFORE_GTIDS", "IS", "ITERATE", "JOIN", "KEY", "KEYS", "KILL", "LATERAL",
   "LEADING", "LEAVE", "LIKE", "LIMIT", "LINEAR", "LINES", "LOAD", "LOCK", "LONG", "LONGBLOB",
   "LONGTEXT", "LOOP", "LOW_PRIORITY", "MASTER_BIND", "MASTER_SSL_VERIFY_SERVER_CERT", "MAXVALUE",
   "MEDIUMBLOB", "MEDIUMINT", "MEDIUMTEXT", "MIDDLEINT", "MINUTE_MICROSECOND", "MINUTE_SECOND",
   "MODIFIES", "NATURAL", "NOT", "NO_WRITE_TO_BINLOG", "NULL", "NUMERIC", "OF", "ON", "OPTIMIZE",
   "OPTIMIZER_COSTS", "OPTION", "OPTIONALLY", "OR", "ORDER", "OUT", "OUTER", "OUTFILE", "OVER",
   "PARTITION", "PRECISION", "PRIMARY", "PROCEDURE", "PURGE", "RANGE", "READ", "READS",
   "READ_WRITE", "REAL", "RECURSIVE", "REFERENCES", "REGEXP", "RELEASE", "RENAME", "REQUIRE",
   "RESIGNAL", "RESTRICT", "RETURN", "REVOKE", "RLIKE", "ROW", "ROWS", "SCHEMAS",
   "SECOND_MICROSECOND", "SELECT", "SENSITIVE", "SEPARATOR", "SET", "SHOW", "SIGNAL", "SMALLINT",
   "SPATIAL", "SPECIFIC", "SQL", "SQLEXCEPTION", "SQLSTATE", "SQLWARNING", "SQL_BIG_RESULT",
   "SQL_CALC_FOUND_ROWS", "SQL_SMALL_RESULT", "SSL", "STARTING", "STORED", "STRAIGHT_JOIN",
   "SYSTEM", "TABLE", "TERMINATED", "THEN", "TINYBLOB", "TINYINT", "TINYTEXT", "TO", "TRAILING",
   "TRIGGER", "TRUE", "UNDO", "UNION", "UNIQUE", "UNLOCK", "UNSIGNED", "UPDATE", "USAGE", "USE",
   "USING", "VARBINARY", "VARCHAR", "VARCHARACTER", "VARYING", "VIRTUAL", "WHEN", "WHERE", "WHILE",
   "WINDOW", "WITH", "WRITE", "XOR", "YEAR_MONTH", "ZEROFILL"]

def functionWords : List Bytes := functionNames.map Utf8.encode

def otherWords : List Bytes := otherNames.map Utf8.encode

def count : Nat := functionNames.length + otherNames.length

/-- Looks up a word as it is spelled, so only an upper case spelling is found. -/
def find? (word : Bytes) : Option Attrs :=
  if functionWords.contains word then some { reserved := true, function := true }
  else if otherWords.contains word then some { reserved := true }
  else none

def attrs (word : Bytes) : Attrs := (find? (word.map Byte.toUpper)).getD {}

end SqlCanon.Reserved
