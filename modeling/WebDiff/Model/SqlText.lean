import WebDiff.Framework.SqlLexer
import WebDiff.Model.Answers

/-!
# The texts of the statements

`prepareStringValue` and the texts that `MySqlStorageConnection` builds for the statements of `Sql`,
each as the parts it concatenates. `mysql_query` is given the text as a C string, and MySQL reads it
with the lexer of `SqlLexer`.
-/

namespace WebDiff

/-- What `prepareStringValue` writes for one character. -/
def prepareChar (c : UInt8) : Bytes :=
  if c = 10 then lit "\\n"
  else if c = 13 then lit "\\r"
  else if c = 92 ∨ c = 34 ∨ c = 39 then [92, c]
  else if c = 0 then lit "\\0"
  else [c]

/-- `prepareStringValue`. -/
def prepareStringValue (value : Bytes) : Bytes :=
  34 :: value.flatMap prepareChar ++ [34]

/-- The operands the texts are concatenated from. -/
inductive TextPart
  | fixed (text : Bytes)
  /-- `prepareStringValue(value)` -/
  | string (value : Bytes)
  /-- `std::to_string(n)` -/
  | number (n : ℤ)
deriving DecidableEq, Repr

def TextPart.text : TextPart → Bytes
  | .fixed text => text
  | .string value => prepareStringValue value
  | .number n => decimal n

/-- The operands of the text of a statement. -/
def Sql.parts : Sql → List TextPart
  | .insertVersion name =>
    [.fixed (lit " INSERT INTO webdiff_versions(`name`, comment) VALUES("), .string name,
      .fixed (lit ",'');")]
  | .insertGroup name =>
    [.fixed (lit " INSERT INTO webdiff_file_groups(`name`) VALUES("), .string name,
      .fixed (lit ");")]
  | .insertDefineFile filepath filename parentId =>
    [.fixed (lit " INSERT INTO webdiff_define_files(filepath, `filename`, parent_id) VALUES("),
      .string filepath, .fixed (lit ", "), .string filename, .fixed (lit ", "), .number parentId,
      .fixed (lit ");")]
  | .insertFile versionId fileGroupId defineFileId parentId =>
    [.fixed (lit (" INSERT INTO webdiff_files(version_id, file_group_id, define_file_id, "
        ++ " parent_id) VALUES(")), .number versionId, .fixed (lit ","), .number fileGroupId,
      .fixed (lit ","), .number defineFileId, .fixed (lit ","), .number parentId, .fixed (lit ");")]
  | .selectCount parentId =>
    [.fixed (lit " SELECT COUNT(id) as cnt FROM webdiff_files WHERE parent_id = "),
      .number parentId, .fixed (lit ";")]
  | .updateAmountOfChildren amountOfChildren id =>
    [.fixed (lit " UPDATE webdiff_files SET amount_of_children = "), .number amountOfChildren,
      .fixed (lit " WHERE id = "), .number id, .fixed (lit ";")]
  | .insertComment defineFileId comment _ =>
    [.fixed (lit (" INSERT INTO webdiff_define_files_comments(define_file_id, comment, "
        ++ "dt_created) VALUES(")), .number defineFileId, .fixed (lit ","), .string comment,
      .fixed (lit ",NOW());")]
  | .updateHided id =>
    [.fixed (lit "  UPDATE webdiff_define_files_comments SET hided = 1 WHERE id = "), .number id,
      .fixed (lit ";")]

/-- `sQuery`. -/
def Sql.text (stmt : Sql) : Bytes :=
  stmt.parts.flatMap TextPart.text

/-- `mysql_query`: the tokens of the statement it sends. -/
def mysqlQuery (query : Bytes) : Option (List SqlLexer.Token) :=
  SqlLexer.lex (cString query)

end WebDiff
