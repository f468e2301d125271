import Insomniac.Vm.State
import Insomniac.Vm.Utf8

/-!
# Vm/Print — the functions of `vm_output.c`

    out ──▸ output_object ──▸ output_pair, output_vector, … ──▸ output_object …
                          ──▸ output_char, output_byte_vector
                          ──▸ find_source_location

Fuel bounds how deep the calls of `output_object` go, and its own limit is met before the fuel is used up
(`Vm/Output`).
-/

open Bytes Insomniac.Asm

namespace Insomniac.Vm

/-! ## What is written

A text is added to what has been printed so far; `depth` is a static variable of `output_object`, which stays from
one call to the next.  The functions stop where they read what C gives no meaning to. -/

/-- What has been printed, and the static `depth`. -/
structure Out where
  text : List UInt8
  depth : ℕ
  deriving DecidableEq

/-- How printing may stop. -/
inductive OutStop
  | undefined
  | noFuel
  deriving DecidableEq

/-- The functions of `vm_output.c`. -/
abbrev OutM := StateT Out (Except OutStop)

/-- `OUTPUT_MAX_DEPTH`. -/
def outputMaxDepth : ℕ := 100

/-- `OUTPUT_MAX_LENGTH`. -/
def outputMaxLength : ℕ := 100

/-- `fprintf`. -/
def fprintf (str : List UInt8) : OutM Unit := modify fun o => { o with text := o.text ++ str }

/-- `%i` and `%u`. -/
def decimal (n : ℤ) : List UInt8 := text (toString n)

/-- What `find_source_location` prints. -/
def locationText : Report → List UInt8
  | .noDebuggingInfo => "No debugging info found.\n"
  | .preamble => "[Preamble code.]\n"
  | .location record realAddr =>
    text "At File: " ++ record.file ++ text ", Line: " ++ decimal record.line.toInt ++ text " Col: " ++
      decimal record.column.toInt ++ text " Addr: " ++ decimal record.startAddr ++ text " Real Addr: " ++
        decimal realAddr ++ text "\n"
  | .unknown => "Uknown location!\n"

/-! ## Kinds of objects

One definition for each function of `vm_output.c`; the call of `output_object` on a part is a parameter, so that
each loop can be looked at alone. -/

section Functions

variable (printer : Printer) (vm : VmInternal) (outputObject : Ptr → OutM Unit)

/-- The end of `output_pair`: a dot before what is not the empty list. -/
def outputTail (pair : Ptr) : OutM Unit :=
  match pair with
  | none => do
    fprintf " . "
    outputObject none
  | some r =>
    match vm.deref r with
    | none => throw .undefined
    | some .empty => pure ()
    | some _ => do
      fprintf " . "
      outputObject (some r)

/-- The loop of `output_pair`, with the rounds that may follow this one. -/
def outputPairFrom : (left : ℕ) → (flag : Bool) → (car pair : Ptr) → OutM Unit
  | 0, flag, car, pair => do
    if flag then fprintf " "
    outputObject car
    outputTail vm outputObject pair
  | left + 1, flag, car, pair => do
    if flag then fprintf " "
    outputObject car
    match pair.bind vm.deref with
    | some (.pair car pair) => outputPairFrom left true car pair
    | _ => outputTail vm outputObject pair

/-- `output_pair`. -/
def outputPair (car cdr : Ptr) : OutM Unit := do
  fprintf "("
  outputPairFrom vm outputObject (outputMaxLength - 1) false car cdr
  fprintf ")"

/-- The loop of `output_vector` and `output_record`. -/
def outputSlots (vector : List Ptr) : (index left : ℕ) → OutM Unit
  | _, 0 => pure ()
  | index, left + 1 => do
    if 0 < index then fprintf " "
    match vector[index]? with
    | none => throw .undefined
    | some obj => outputObject obj
    outputSlots vector (index + 1) left

/-- `output_vector` and `output_record`, which begin and end in different ways. -/
def outputVector (opening closing : List UInt8) (length : Int64) (vector : ℕ) : OutM Unit := do
  fprintf opening
  outputSlots outputObject (vm.arrays.getD vector []) 0 length.toInt.toNat
  fprintf closing

/-- The loop of `output_byte_vector`. -/
def outputBytes (bytes : List UInt8) : (index left : ℕ) → OutM Unit
  | _, 0 => pure ()
  | index, left + 1 => do
    if 0 < index then fprintf " "
    match bytes[index]? with
    | none => throw .undefined
    | some b => fprintf (decimal b.toNat)
    outputBytes bytes (index + 1) left

/-- `output_byte_vector`. -/
def outputByteVector (length : Int64) (vector : ℕ) : OutM Unit := do
  fprintf "#u8("
  outputBytes (vm.bytes.getD vector []) 0 length.toInt.toNat
  fprintf ")"

/-- `output_char`. -/
def outputChar (character : UInt32) : OutM Unit := fprintf (cstr (utf8EncodeChar character))

/-- The loop over the environments of a closure. -/
def outputEnvs (obj : Ref) : (fuel : ℕ) → (env : Option ℕ) → OutM Unit
  | _, none => pure ()
  | 0, some _ => throw .noFuel
  | fuel + 1, some e =>
    match vm.envs[e]? with
    | none => throw .undefined
    | some env => do
      fprintf (printer.closure vm obj e)
      fprintf (locationText (findSourceLocation (printer.debug vm e) env.ip))
      fprintf ">\n"
      outputEnvs obj fuel env.parent

/-- The `switch` of `output_object`. -/
def outputValue (obj : Ref) : Obj → OutM Unit
  | .fixnum integer => fprintf (decimal integer.toInt)
  | .empty => fprintf "()"
  | .pair car cdr => outputPair vm outputObject car cdr
  | .char character => outputChar character
  | .string _ bytes | .symbol _ bytes =>
    match vm.bytes[bytes]?.bind cstr? with
    | none => throw .undefined
    | some str => fprintf str
  | .vector length vector => outputVector vm outputObject "#(" ")" length vector
  | .byteVector length vector => outputByteVector vm length vector
  | .record length vector => outputVector vm outputObject "<RECORD " ">" length vector
  | .bool boolean => fprintf (if boolean then "#t" else "#f")
  | .closure env => do
    fprintf "\x7b"
    outputEnvs printer vm obj vm.envs.length (some env)
    fprintf "\x7d"
  | .library _ _ => fprintf (printer.library vm obj)

end Functions

/-! ## Any object

`output_object`, with its test for null, its limit, and its switch over the types. -/

/-- **`output_object`**: what is deeper than the limit is left out. -/
def outputObject (printer : Printer) (vm : VmInternal) : (fuel : ℕ) → Ptr → OutM Unit
  | 0, _ => throw .noFuel
  | fuel + 1, obj => do
    modify fun o => { o with depth := o.depth + 1 }
    if outputMaxDepth ≤ (← get).depth then
      fprintf " ..."
      modify fun o => { o with depth := o.depth - 1 }
    else
      match obj with
      | none => fprintf "<nil>"
      | some r =>
        match vm.deref r with
        | none => throw .undefined
        | some o => outputValue printer vm (outputObject printer vm fuel) r o
        modify fun o => { o with depth := o.depth - 1 }

/-- `output_object` on the standard output, as `op_output` calls it: the text goes out, and the static `depth`
stays as printing has left it. -/
def printObject (printer : Printer) (obj : Ref) : VmM Unit := fun vm =>
  match outputObject printer vm outputMaxDepth (some obj) ⟨[], vm.outputDepth⟩ with
  | .ok ((), out) => .ok ((), { vm with calls := .print out.text :: vm.calls, outputDepth := out.depth })
  | .error _ => .error .undefined

end Insomniac.Vm
