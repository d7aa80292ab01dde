import WasmCompiler.Symbols.Table

/-!
# Arguments of the command

One input file, and options in short form (`-r`, several of which can be joined) or long form
(`--run`). An option with a value takes it from the same word or from the next one, which may not
look like an option. After `--` every word is a file. No option may be given twice.
-/

namespace WasmCompiler.CommandLine

/-- What the command is asked to do. -/
structure Arguments where
  input : String
  output : Option String := none
  emitTree : Bool := false
  run : Bool := false
  verbose : Bool := false
  memoryStart : Nat := defaultMemoryStart
deriving DecidableEq, Repr

/-- What a list of words asks for. -/
inductive Request where
  | compile (arguments : Arguments)
  | help
  | version
  /-- The words make no sense. -/
  | misused
deriving DecidableEq, Repr

/-- The options. -/
inductive Flag where
  | emitTree
  | run
  | verbose
deriving DecidableEq, Repr

/-- The options with a value. -/
inductive Setting where
  | output
  | memoryStart
deriving DecidableEq, Repr

/-- What one word, with the next one if it takes it, means. -/
inductive Item where
  | flag (flag : Flag)
  | setting (setting : Setting) (value : String)
  | file (path : String)
  | help
  | version
deriving DecidableEq, Repr

/-! ### Words -/

/-- Whether a word looks like an option. A lone `-` does not. -/
def looksLikeOption (word : String) : Bool :=
  match word.toList with
  | '-' :: _ :: _ => true
  | _ => false

/-- The value of an option: the attached one, or the next word. -/
def valueOf (attached : Option String) (rest : List String) : Option (String × List String) :=
  match attached with
  | some value => some (value, rest)
  | none =>
    match rest with
    | word :: rest => if looksLikeOption word then none else some (word, rest)
    | [] => none

/-- Splits a long option at the first `=`. -/
def splitAssignment (chars : List Char) : String × Option String :=
  match chars.dropWhile (· ≠ '=') with
  | [] => (String.ofList chars, none)
  | _ :: value => (String.ofList (chars.takeWhile (· ≠ '=')), some (String.ofList value))

/-- A long option, without its dashes. -/
def longOption (chars : List Char) (rest : List String) : Option (Item × List String) :=
  match splitAssignment chars with
  | ("output", attached) =>
    (valueOf attached rest).map fun (value, rest) => (.setting .output value, rest)
  | ("memory-start", attached) =>
    (valueOf attached rest).map fun (value, rest) => (.setting .memoryStart value, rest)
  | ("emit-ast", none) => some (.flag .emitTree, rest)
  | ("run", none) => some (.flag .run, rest)
  | ("verbose", none) => some (.flag .verbose, rest)
  | ("help", none) => some (.help, rest)
  | ("version", none) => some (.version, rest)
  | _ => none

/-- The text after a short option, if there is one, without a `=` in front. -/
def attachedValue : List Char → Option String
  | [] => none
  | '=' :: chars => some (String.ofList chars)
  | chars => some (String.ofList chars)

/-- Joined short options, without their dash. One with a value takes the rest of the word. -/
def shortOptions : List Char → List String → Option (List Item × List String)
  | [], rest => some ([], rest)
  | 'o' :: chars, rest =>
    (valueOf (attachedValue chars) rest).map fun (value, rest) => ([.setting .output value], rest)
  | c :: chars, rest => do
    let item ←
      match c with
      | 'r' => some (.flag .run)
      | 'v' => some (.flag .verbose)
      | 'h' => some .help
      | 'V' => some .version
      | _ => none
    let (items, rest) ← shortOptions chars rest
    some (item :: items, rest)

/-- The items of one word, and the words after it that are left. -/
def word (w : String) (rest : List String) : Option (List Item × List String) :=
  match w.toList with
  | '-' :: '-' :: chars => (longOption chars rest).map fun (item, rest) => ([item], rest)
  | '-' :: c :: chars => shortOptions (c :: chars) rest
  | _ => some ([.file w], rest)

/-- The items of at most `n` words. -/
def itemsUpTo : Nat → List String → Option (List Item)
  | 0, _ | _ + 1, [] => some []
  | _ + 1, "--" :: rest => some (rest.map .file)
  | n + 1, w :: rest => do
    let (items, rest) ← word w rest
    let others ← itemsUpTo n rest
    some (items ++ others)

/-- The items of all words. -/
def items (words : List String) : Option (List Item) :=
  itemsUpTo words.length words

/-! ### Values -/

/-- A number with an optional sign. -/
def integer? (text : String) : Option Int :=
  let digits? (chars : List Char) : Option Nat :=
    if chars.isEmpty || !chars.all Char.isDigit then none
    else some (chars.foldl (fun n c => 10 * n + (c.toNat - '0'.toNat)) 0)
  match text.toList with
  | '-' :: chars => (digits? chars).map fun n => -(n : Int)
  | '+' :: chars => (digits? chars).map (↑·)
  | chars => (digits? chars).map (↑·)

/-- A start of memory that a compilation accepts. -/
def memoryStart? (text : String) : Option Nat := do
  let value ← integer? text
  guard (0 ≤ value ∧ value ≤ maxMemoryStart)
  some value.toNat

/-- The only element of a list, or the default of an empty one. -/
def atMostOne {α : Type} (default : α) : List α → Option α
  | [] => some default
  | [a] => some a
  | _ => none

/-- A path, which is not empty. -/
def path? (text : String) : Option String :=
  if text.isEmpty then none else some text

/-- Whether an option is given. It may not be given twice. -/
def flag? (items : List Item) (flag : Flag) : Option Bool :=
  atMostOne false ((items.filter (· = .flag flag)).map fun _ => true)

/-- The values of an option. -/
def values (items : List Item) (setting : Setting) : List String :=
  items.filterMap fun
    | .setting s value => if s = setting then some value else none
    | _ => none

/-- The files. -/
def files (items : List Item) : List String :=
  items.filterMap fun
    | .file path => some path
    | _ => none

/-- The arguments that items make up. -/
def arguments? (items : List Item) : Option Arguments := do
  let [input] ← (files items).mapM path? | none
  let output ← atMostOne none (← (values items .output).mapM fun v => (path? v).map some)
  let memoryStart ← atMostOne defaultMemoryStart (← (values items .memoryStart).mapM memoryStart?)
  some
    { input
      output
      emitTree := ← flag? items .emitTree
      run := ← flag? items .run
      verbose := ← flag? items .verbose
      memoryStart }

/-- What words ask for. -/
def request (words : List String) : Request :=
  match items words with
  | none => .misused
  | some items =>
    if items.contains .help then .help
    else if items.contains .version then .version
    else
      match arguments? items with
      | some arguments => .compile arguments
      | none => .misused

end WasmCompiler.CommandLine
