import WasmCompiler.Text.Quoted

/-!
# Structured documents

A document is built from texts, numbers, lists and records, whose fields have an order.
`Document.pretty` writes it as JSON, each item and each field on a line of its own.
-/

namespace WasmCompiler.Text

inductive Document where
  | null
  | bool (value : Bool)
  | integer (value : Int)
  /-- A number given by its digits. -/
  | decimal (digits : String)
  | string (text : String)
  | list (items : List Document)
  | record (fields : List (String × Document))
deriving Inhabited, Repr

namespace Document

/-- One character of a string in JSON. Only what may not stand there is escaped. -/
def escapeChar (c : Char) : String :=
  if c = '"' then "\\\""
  else if c = '\\' then "\\\\"
  else if c = '\x08' then "\\b"
  else if c = '\x0c' then "\\f"
  else if c = '\n' then "\\n"
  else if c = '\r' then "\\r"
  else if c = '\t' then "\\t"
  else if c.toNat < 0x10 then "\\u000" ++ hexDigits c.toNat
  else if c.toNat < 0x20 then "\\u00" ++ hexDigits c.toNat
  else c.toString

/-- A string in JSON. -/
def escape (text : String) : String :=
  "\"" ++ String.join (text.toList.map escapeChar) ++ "\""

/-- The beginning of a line at a depth. -/
def newline (depth : Nat) : String :=
  "\n" ++ String.ofList (List.replicate (2 * depth) ' ')

/-- Items between brackets, each on a line of its own; nothing between them if there are none. -/
def bracketed (opening closing : String) (depth : Nat) (items : List String) : String :=
  if items.isEmpty then opening ++ closing
  else
    opening ++ ",".intercalate (items.map (newline (depth + 1) ++ ·)) ++ newline depth ++ closing

mutual

/-- The text of a document that begins on a line of a depth. -/
def prettyAt (depth : Nat) : Document → String
  | .null => "null"
  | .bool value => if value then "true" else "false"
  | .integer value => toString value
  | .decimal digits => digits
  | .string text => escape text
  | .list items => bracketed "[" "]" depth (prettyItems (depth + 1) items)
  | .record fields => bracketed "\x7b" "\x7d" depth (prettyFields (depth + 1) fields)

/-- The texts of the items of a list. -/
def prettyItems (depth : Nat) : List Document → List String
  | [] => []
  | d :: ds => prettyAt depth d :: prettyItems depth ds

/-- The texts of the fields of a record. -/
def prettyFields (depth : Nat) : List (String × Document) → List String
  | [] => []
  | (name, d) :: rest => (escape name ++ ": " ++ prettyAt depth d) :: prettyFields depth rest

end

/-- The text of a document. -/
def pretty (d : Document) : String :=
  d.prettyAt 0

/-- A record of one field, by which variants are told apart. -/
def tagged (tag : String) (content : Document) : Document :=
  .record [(tag, content)]

end Document

end WasmCompiler.Text
