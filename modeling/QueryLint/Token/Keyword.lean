/-!
# Keywords

The reserved words of the query language, and the verbs that start a statement
without being reserved. A word is a keyword in any mixture of ASCII cases.
-/
namespace QueryLint
namespace Keyword

def reserved : List String :=
  ["ALL", "AND", "ANY", "ARRAY", "AS", "ASC", "ASSERT_ROWS_MODIFIED", "AT", "BETWEEN", "BY",
   "CASE", "CAST", "COLLATE", "CONTAINS", "CREATE", "CROSS", "CUBE", "CURRENT", "DEFAULT",
   "DEFINE", "DESC", "DISTINCT", "ELSE", "END", "ENUM", "ESCAPE", "EXCEPT", "EXCLUDE", "EXISTS",
   "EXTRACT", "FALSE", "FETCH", "FOLLOWING", "FOR", "FROM", "FULL", "GROUP", "GROUPING", "GROUPS",
   "HASH", "HAVING", "IF", "IGNORE", "IN", "INNER", "INTERSECT", "INTERVAL", "INTO", "IS", "JOIN",
   "LATERAL", "LEFT", "LIKE", "LIMIT", "LOOKUP", "MERGE", "NATURAL", "NEW", "NO", "NOT", "NULL",
   "NULLS", "OF", "ON", "OR", "ORDER", "OUTER", "OVER", "PARTITION", "PRECEDING", "PROTO",
   "QUALIFY", "RANGE", "RECURSIVE", "RESPECT", "RIGHT", "ROLLUP", "ROWS", "SELECT", "SET", "SOME",
   "STRUCT", "TABLESAMPLE", "THEN", "TO", "TREAT", "TRUE", "UNBOUNDED", "UNION", "UNNEST",
   "USING", "WHEN", "WHERE", "WINDOW", "WITH", "WITHIN"]

/-- Verbs that start a statement and are not reserved. -/
def verbs : List String :=
  ["ALTER", "CALL", "DECLARE", "DELETE", "DROP", "EXECUTE", "INSERT", "TRUNCATE", "UPDATE",
   "VALUES"]

def spellings : List (List Char) :=
  (reserved ++ verbs).map String.toList

/-- Upper case for the ASCII letters; every other character stays. -/
def upper (word : List Char) : List Char :=
  word.map Char.toUpper

/-- Lower case for the ASCII letters; every other character stays. -/
def lower (word : List Char) : List Char :=
  word.map Char.toLower

def isKeyword (word : List Char) : Bool :=
  spellings.contains (upper word)

end Keyword
end QueryLint
