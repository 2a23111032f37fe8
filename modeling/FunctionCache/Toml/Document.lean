import FunctionCache.Toml.Quoted
import FunctionCache.Toml.Written

/-!
# TOML documents

A document is a list of statements, one on a line: headers, which open a table,
and entries, which put a value under a key of the table last opened.

* `Scan.value` — takes a value; arrays and inline tables nest up to `maxDepth`
  levels;
* `WrittenTable.enter`, `WrittenTable.define` — where a path of keys leads, and
  what an entry may do there: a key is defined once, a table opened once, and
  what stands between braces is complete;
* `Table.ofText?` — what the root table of a document stands for.
-/

namespace FunctionCache.Toml

/-! ## Tables under paths of keys -/

namespace WrittenTable

/-- Changes the table at the end of a path by `change`, which is told how that table came about.
Tables on the way that do not exist are made, `dotted` or `implied`. In an array of tables the path
goes on in the last one. A path never enters a table between braces, nor a dotted one a table with
a header. -/
def enter (dotted : Bool) (change : TableKind → WrittenTable → Option WrittenTable)
    (kind : TableKind) (t : WrittenTable) : List String → Option WrittenTable
  | [] => change kind t
  | key :: path =>
    match t.get? key with
    | none => do
      let made := if dotted then TableKind.dotted else .implied
      return t.set key (.table made (← enter dotted change made [] path))
    | some (.table kind inner) =>
      if kind = .inline ∨ (dotted ∧ kind = .explicit) then none
      else do return t.set key (.table kind (← enter dotted change kind inner path))
    | some (.tables items) => do
      let last ← items.getLast?
      let last ← enter dotted change .explicit last path
      return t.set key (.tables (items.dropLast ++ [last]))
    | some _ => none

/-- Puts a value under a path of keys. A dotted path ends in a table that dotted keys made. -/
def define (t : WrittenTable) (kind : TableKind) (path : List String) (key : String) (v : Written) :
    Option WrittenTable :=
  let put (kind : TableKind) (inner : WrittenTable) : Option WrittenTable :=
    if (kind == .dotted) == path.isEmpty then none
    else if (inner.get? key).isSome then none
    else some (inner.set key v)
  enter true put kind t path

/-- Opens the table of a header, which must be new or implied by longer headers before. -/
def openTable (t : WrittenTable) (path : List String) (key : String) : Option WrittenTable :=
  let put (_ : TableKind) (inner : WrittenTable) : Option WrittenTable :=
    match inner.get? key with
    | none => some (inner.set key (.table .explicit []))
    | some (.table .implied entries) => some (inner.set key (.table .explicit entries))
    | some _ => none
  enter false put .explicit t path

/-- Opens a further table of an array of tables. -/
def openElement (t : WrittenTable) (path : List String) (key : String) : Option WrittenTable :=
  let put (_ : TableKind) (inner : WrittenTable) : Option WrittenTable :=
    match inner.get? key with
    | none => some (inner.set key (.tables [[]]))
    | some (.tables items) => some (inner.set key (.tables (items ++ [[]])))
    | some _ => none
  enter false put .explicit t path

end WrittenTable

/-! ## Keys and values -/

/-- The largest number of arrays and inline tables inside each other, and of keys in a path. -/
def maxDepth : Nat := 80

/-- A path of keys before the last key, and the last key. -/
abbrev KeyPath := List String × String

namespace Scan

/-- Characters of keys that need no quotes. -/
def isBareKey (c : Char) : Bool := c.isAlphanum || c == '_' || c == '-'

/-- Takes one key: bare, or a string on one line. -/
def simpleKey : Scan String := do
  if ← tryString ['"'] then Quoted.line '"' true
  else if ← tryString ['\''] then Quoted.line '\'' false
  else
    let cs ← takeWhile isBareKey
    if cs.isEmpty then refuse else return String.ofList cs

/-- Takes keys with points between them, at most `maxDepth`, and the blanks around them. -/
def keyPath : Scan KeyPath := do
  blanks
  let first ← simpleKey
  blanks
  let rest ← many do
    if ← tryString ['.'] then
      blanks
      let key ← simpleKey
      blanks
      return some key
    else return none
  let keys := first :: rest
  if maxDepth < keys.length then refuse
  return (keys.dropLast, keys.getLastD first)

/-- The characters of values without quotes are all that neither end a value nor part it. -/
def isScalar (c : Char) : Bool :=
  c ∉ ['=', ',', '[', ']', '\x7b', '\x7d', '#', ' ', '\t', '\r', '\n']

/-- Whether a character behind a blank goes on with the value before. -/
def isContinuation (c : Char) : Bool := isScalar c && c ∉ ['.', '"', '\'']

/-- Takes blanks and the characters behind them, if these go on with a value without quotes. -/
def continuation? : Scan (Option (List Char)) := do
  let cs ← get
  let gap := cs.takeWhile isBlank
  let rest := cs.drop gap.length
  if gap.isEmpty || !rest.head?.any isContinuation then return none
  set rest
  return gap ++ (← takeWhile isScalar)

/-- Takes the characters of a value without quotes. There may be blanks between them, as there is
one between a date and a time. -/
def scalarText : Scan (List Char) := do
  let cs ← takeWhile isScalar
  return cs ++ (← many continuation?).flatten

/-- The value without quotes that characters have the shape of. -/
def scalar? (cs : List Char) : Option Written :=
  if cs = ['t', 'r', 'u', 'e'] then some (.boolean true)
  else if cs = ['f', 'a', 'l', 's', 'e'] then some (.boolean false)
  else
    .integer <$> Numeral.ofText? cs <|> .float <$> Decimal.ofText? cs <|>
      .datetime <$> Moment.dateTime? cs

/-- Takes the items up to a closing character, with commas between them, blanks and comments
around them, and perhaps a comma behind the last. -/
def items {α : Type} (item : Scan α) (close : Char) : Scan (List α) := do
  blankLines
  let found ← many do
    if (← peek?) == some close then return none
    let x ← item
    blankLines
    unless ← tryString [','] do
      unless (← peek?) == some close do refuse
    blankLines
    return some x
  char close
  return found

/-- Takes a key path, an equals sign and a value. A `gap` may be on both sides of the sign. -/
def entry (gap : Scan Unit) (value : Scan Written) : Scan (KeyPath × Written) := do
  let path ← keyPath
  gap
  char '='
  gap
  return (path, ← value)

/-- Takes a value with at most `nesting` arrays and inline tables inside each other. Between braces,
lines may end and comments stand wherever blanks may, but not inside a path of keys. -/
def value (nesting : Nat) : Scan Written := do
  if let some s ← Quoted.tryString? then return .string s
  match nesting, ← peek? with
  | nesting + 1, some '[' =>
    char '['
    return .array (← items (value nesting) ']')
  | nesting + 1, some '\x7b' =>
    char '\x7b'
    let entries ← items (entry blankLines (value nesting)) '\x7d'
    let define (t : WrittenTable) : KeyPath × Written → Option WrittenTable
      | ((path, key), v) => t.define .explicit path key v
    return .table .inline (← liftM (entries.foldlM define []))
  | _, _ =>
    match scalar? (← scalarText) with
    | some v => return v
    | none => refuse

end Scan

/-! ## Statements -/

/-- A line that is not blank. -/
inductive Statement
  /-- Opens a table. -/
  | header (path : KeyPath)
  /-- Opens a further table of an array. -/
  | elementHeader (path : KeyPath)
  /-- Puts a value under a key. -/
  | entry (path : KeyPath) (v : Written)

namespace Scan

/-- Takes a statement. -/
def statement : Scan Statement := do
  if ← tryString ['[', '['] then
    let path ← keyPath
    char ']'
    char ']'
    return .elementHeader path
  else if ← tryString ['['] then
    let path ← keyPath
    char ']'
    return .header path
  else
    let (path, v) ← entry blanks (value maxDepth)
    return .entry path v

/-- Takes the statements of a document. -/
def statements : Scan (List Statement) := many do
  blankLines
  if (← peek?).isNone then return none
  let s ← statement
  endOfLine
  return some s

end Scan

namespace WrittenTable

/-- Executes a statement: the root table and the path of the table last opened. -/
def execute : WrittenTable × List String → Statement → Option (WrittenTable × List String)
  | (root, _), .header (path, key) => return (← root.openTable path key, path ++ [key])
  | (root, _), .elementHeader (path, key) => return (← root.openElement path key, path ++ [key])
  | (root, current), .entry (path, key) v => do
    let define (kind : TableKind) (t : WrittenTable) := t.define kind path key v
    return (← enter false define .explicit root current, current)

end WrittenTable

/-- What the root table of a document stands for; a byte order mark in front of the document is
passed over. -/
def Table.ofText? (text : String) : Option Table := do
  let cs := match text.toList with
    | '\ufeff' :: cs => cs
    | cs => cs
  let (statements, _) ← Scan.statements.run cs
  let (root, _) ← statements.foldlM WrittenTable.execute ([], [])
  root.denote?

end FunctionCache.Toml
