/-!
# Text as bytes

Encoding a text in UTF-8, and reading bytes that may not be UTF-8. The reader splits its input
into parts: each is a well-formed character or a maximal run of bytes that starts one and does
not finish it. `decode?` wants every part to be a character; `decodeLossy` shows each of the
others as one replacement character.
-/

namespace WasmCompiler.Text.Utf8

/-- The bytes of a text. -/
def encode (text : String) : List UInt8 :=
  text.toList.flatMap String.utf8EncodeChar

/-- Whether a byte lies between two others. -/
def within (first last : UInt8) (byte : UInt8) : Bool :=
  first ≤ byte && byte ≤ last

/-- Whether a byte carries six bits of a character begun before it. -/
def isContinuation : UInt8 → Bool :=
  within 0x80 0xbf

/-- The bytes that may follow a first byte in a character of three or four bytes. They leave out
the long spellings of short characters, the surrogates and what lies beyond the last plane. -/
def admitsSecond (first second : UInt8) : Bool :=
  if first == 0xe0 then within 0xa0 0xbf second
  else if first == 0xed then within 0x80 0x9f second
  else if first == 0xf0 then within 0x90 0xbf second
  else if first == 0xf4 then within 0x80 0x8f second
  else isContinuation second

/-- The low six bits of a continuation byte. -/
def payload (byte : UInt8) : Nat :=
  byte.toNat % 64

/-- The first part of `first :: rest`: its character, if it is one, and how many bytes of `rest`
belong to it. -/
def leadingPart (first : UInt8) (rest : List UInt8) : Option Char × Nat :=
  if first < 0x80 then (some (Char.ofNat first.toNat), 0)
  else if within 0xc2 0xdf first then
    match rest with
    | b :: _ =>
      if isContinuation b then (some (Char.ofNat ((first.toNat % 32) * 64 + payload b)), 1)
      else (none, 0)
    | [] => (none, 0)
  else if within 0xe0 0xef first then
    match rest with
    | b :: c :: _ =>
      if !admitsSecond first b then (none, 0)
      else if !isContinuation c then (none, 1)
      else (some (Char.ofNat (((first.toNat % 16) * 64 + payload b) * 64 + payload c)), 2)
    | [b] => (none, if admitsSecond first b then 1 else 0)
    | [] => (none, 0)
  else if within 0xf0 0xf4 first then
    match rest with
    | b :: c :: d :: _ =>
      if !admitsSecond first b then (none, 0)
      else if !isContinuation c then (none, 1)
      else if !isContinuation d then (none, 2)
      else (some (Char.ofNat
        ((((first.toNat % 8) * 64 + payload b) * 64 + payload c) * 64 + payload d)), 3)
    | [b, c] =>
      if !admitsSecond first b then (none, 0)
      else (none, if isContinuation c then 2 else 1)
    | [b] => (none, if admitsSecond first b then 1 else 0)
    | [] => (none, 0)
  else (none, 0)

/-- The parts of a byte sequence, in order; `none` stands for a part that is no character. -/
def parts : List UInt8 → List (Option Char)
  | [] => []
  | first :: rest =>
    let (char?, taken) := leadingPart first rest
    char? :: parts (rest.drop taken)
termination_by bytes => bytes.length
decreasing_by
  simp only [List.length_drop, List.length_cons]
  omega

/-- The text whose encoding the bytes are, if there is one. -/
def decode? (bytes : List UInt8) : Option String :=
  ((parts bytes).mapM id).map String.ofList

/-- The text with one replacement character for each part that is none. -/
def decodeLossy (bytes : List UInt8) : String :=
  String.ofList ((parts bytes).map (·.getD '\uFFFD'))

end WasmCompiler.Text.Utf8
