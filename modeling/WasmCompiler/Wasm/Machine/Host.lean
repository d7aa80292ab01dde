import WasmCompiler.Wasm.Machine.Memory

/-!
# The host of a program

What a program can ask of its surroundings: to print an integer, to print the string whose record
is at an address, and to enlarge its memory. A string that cannot be read does not stop the
program; the first such fault is kept.
-/

namespace WasmCompiler.Wasm

/-- Why a string could not be printed. -/
inductive HostFault where
  | memoryNotExported
  | pointer (address : Nat)
  | length (address count : Nat)
deriving DecidableEq, Repr

/-- The fault in words. -/
def HostFault.message : HostFault → String
  | .memoryNotExported => "module does not export its memory"
  | .pointer address => "string pointer " ++ toString address ++ " is out of bounds"
  | .length address count =>
    "string at " ++ toString address ++ " with length " ++ toString count ++ " is out of bounds"

/-- The functions that the host provides. -/
inductive HostFunction where
  | print
  | printString
deriving DecidableEq, Repr

/-- What happened outside the program. -/
structure HostState where
  /-- What was printed, a line for each call. -/
  output : String
  /-- The first fault. -/
  fault : Option HostFault
deriving DecidableEq, Repr, Inhabited

namespace HostState

/-- Nothing happened. -/
def initial : HostState := ⟨"", none⟩

/-- Prints a line. -/
def line (h : HostState) (text : String) : HostState :=
  { h with output := h.output ++ text ++ "\n" }

/-- Keeps a fault unless there is one. -/
def blame (h : HostState) (fault : HostFault) : HostState :=
  { h with fault := h.fault.or (some fault) }

end HostState

/-- The text of the string record at an address. -/
def Memory.string (m : Memory) (address : Nat) : Except HostFault String :=
  match m.word? address with
  | none => .error (.pointer address)
  | some length =>
    match m.bytes? (address + 4) length.toNat with
    | none => .error (.length address length.toNat)
    | some bytes => .ok (Text.Utf8.decodeLossy bytes)

/-- Prints the string at an address of a memory, which the host can see only if it is
exported. -/
def HostState.printString (h : HostState) (exported : Option Memory) (address : Nat) : HostState :=
  match exported with
  | none => h.blame .memoryNotExported
  | some m =>
    match m.string address with
    | .ok text => h.line text
    | .error fault => h.blame fault

end WasmCompiler.Wasm
