import Khora.Filter.Value

/-!
# SQLite conditions

The fragment of SQLite's expression language the SQLite compiler emits.  A JSON path is the list of its
quoted labels.
-/

namespace Khora

inductive SqlTerm where
  | column (name : String)
  | bind (v : Value)
  | literal (s : String)
  | jsonType (column : String) (segs : List String)
  | jsonExtract (column : String) (segs : List String)
  /-- `json(json_extract(column, path))`. -/
  | jsonNode (column : String) (segs : List String)
  /-- `json(?)`, bound to the text of a document. -/
  | jsonText (j : Json)

inductive SqliteCond where
  | const (b : Bool)
  | isNull (t : SqlTerm)
  | isNotNull (t : SqlTerm)
  | eq (a b : SqlTerm)
  | ne (a b : SqlTerm)
  | range (c : Value.Cmp) (a b : SqlTerm)
  | isIn (a : SqlTerm) (bs : List SqlTerm)
  | inTexts (a : SqlTerm) (texts : List String)
  | not (c : SqliteCond)
  | all (cs : List SqliteCond)
  | any (cs : List SqliteCond)
  /-- `coalesce(c, 0)`. -/
  | coalesce (c : SqliteCond)
  /-- `CASE WHEN c THEN t ELSE 0 END`. -/
  | caseWhen (c t : SqliteCond)
  /-- `EXISTS(SELECT 1 FROM json_each(column, path) je WHERE je.value = ? AND je.type IN gate)`. -/
  | existsEach (column : String) (segs : List String) (value : Value) (gate : List String)

end Khora
