import WasmCompiler.Compile

/-!
# Compilation for an embedding program

A request is the bytes of a source text. A response is a byte that tells success from failure,
the length of what follows as four bytes, and then the module or the error message.
-/

namespace WasmCompiler.Embedding

/-- What a request led to. -/
inductive Response where
  | compiled (module : List UInt8)
  | invalidText
  | failed (error : CompileError)

/-- The response to a request. -/
def respond (request : List UInt8) : Response :=
  match Text.Utf8.decode? request with
  | none => .invalidText
  | some source =>
    match compileToBytes source {} with
    | .ok module => .compiled module
    | .error e => .failed e

namespace Response

/-- Zero for success and one for failure. -/
def status : Response → UInt8
  | .compiled _ => 0
  | .invalidText | .failed _ => 1

/-- The message of a failure. -/
def message : Response → String
  | .compiled _ => ""
  | .invalidText => "Error: Invalid UTF-8 input"
  | .failed e => e.message

/-- What follows the length. -/
def payload : Response → List UInt8
  | .compiled module => module
  | r => Text.Utf8.encode r.message

/-- The response as bytes. -/
def encode (r : Response) : List UInt8 :=
  r.status :: littleEndian32 r.payload.length ++ r.payload

end Response

end WasmCompiler.Embedding
