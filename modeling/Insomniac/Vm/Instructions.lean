import Insomniac.Vm.Print

/-!
# Vm/Instructions — the functions of the operations

One definition for each `op_` function, with `throw` for the macro of that name.  What follows a
`throw` in the source is carried out after it here as well: only `handle_exception` decides that
nothing is left to do.
-/

open Bytes Insomniac.Asm

namespace Insomniac.Vm

/-! ## Reading the code

`parse_int` and `parse_string` read at the instruction pointer, and leave it behind what they read. -/

/-- The code that an environment points at. -/
def codeOf (env : Env) : VmM Code := ofOption fun vm => env.codeRef.bind (vm.codes[·]?)

/-- Move the instruction pointer behind what was read. -/
def skip (count : ℕ) : VmM Unit := updateEnv fun env => { env with ip := env.ip + count }

/-- Add a displacement to the instruction pointer. -/
def jump (target : Int64) : VmM Unit := updateEnv fun env => { env with ip := jumpTo env.ip target }

/-- `parse_int`. -/
def parseInt : VmM Int64 := do
  let env ← currentEnv
  let code ← codeOf env
  skip 8
  pure (Asm.parseInt code env.ip)

/-- `parse_string`. -/
def parseString : VmM Ref := do
  let length ← parseInt
  let env ← currentEnv
  let code ← codeOf env
  let obj ← vmMakeString (code.slice env.ip length.toInt.toNat) length
  skip length.toInt.toNat
  pure obj

section

variable (host : Host)

/-- The `value.string` of an object. -/
def stringFields (obj : Ref) : VmM (Int64 × ℕ) := ofOption fun vm =>
  (vm.deref obj).bind Obj.stringFields

/-- Write an object. -/
def store (obj : Ref) (o : Obj) : VmM Unit := fun vm =>
  match obj with
  | .obj n => .ok ((), { vm with objs := vm.objs.set n o })
  | .cell _ => .error .undefined

/-- `make_symbol`: the symbol of a name, or the string object itself, made into one. -/
def makeSymbol (obj : Ref) : VmM Ref := do
  let (length, bytes) ← stringFields obj
  let symbolTable := (← get).symbolTable
  match ← hashGet host symbolTable bytes with
  | some symbol => pure symbol
  | none =>
    store obj (.symbol length bytes)
    hashSet host symbolTable bytes obj
    pure obj

/-! ## Literals

The constants of the machine, and what is written out in the code. -/

/-- `op_lit_64bit`. -/
def opLit64bit : VmM Unit := do
  let num ← parseInt
  let obj ← alloc (.fixnum num)
  vmPush obj

/-- `op_lit_char`. -/
def opLitChar : VmM Unit := do
  let env ← currentEnv
  let code ← codeOf env
  skip 4
  let obj ← alloc (.char (parseChar code env.ip))
  vmPush obj

/-- `op_lit_empty`, `op_lit_true` and `op_lit_false` push an object that is always there. -/
def pushConstant (f : VmInternal → Ref) : VmM Unit := do
  let vm ← get
  vmPush (f vm)

@[inherit_doc pushConstant] def opLitEmpty : VmM Unit := pushConstant (·.empty)
@[inherit_doc pushConstant] def opLitTrue : VmM Unit := pushConstant (·.vmTrue)
@[inherit_doc pushConstant] def opLitFalse : VmM Unit := pushConstant (·.vmFalse)

/-- `op_lit_symbol`. -/
def opLitSymbol : VmM Unit := do
  let obj ← parseString
  let obj ← makeSymbol host obj
  vmPush obj

/-- `op_lit_string`. -/
def opLitString : VmM Unit := do
  let obj ← parseString
  vmPush obj

variable (throw : Throw)

/-- The check of `op_make_symbol`. -/
def checkString (obj : Ref) : VmM Unit := do
  match ← load obj with
  | .string _ _ => pure ()
  | _ => throw "Only string can be converted into a symbol." [obj]

/-- `op_make_symbol`: it goes on when the check has thrown and a handler has been found.  The operand is then read
as if it were a string, which has no meaning for most objects. -/
def opMakeSymbol : VmM Unit := do
  let obj ← vmPop
  checkString throw obj
  let obj ← makeSymbol host obj
  vmPush obj

/-! ## Lists

`cons` makes a pair of two objects; the other four look for a pair first, and throw where there is none. -/

/-- `op_cons`. -/
def opCons : VmM Unit := do
  let car ← vmPop
  let cdr ← vmPop
  let pair ← cons car cdr
  vmPush pair

/-- `op_car`. -/
def opCar : VmM Unit := do
  let obj ← vmPop
  match ← load obj with
  | .pair car _ => vmPush car
  | _ => throw "Attempt to read the car of a non-pair" [obj]

/-- `op_cdr`. -/
def opCdr : VmM Unit := do
  let obj ← vmPop
  match ← load obj with
  | .pair _ cdr => vmPush cdr
  | _ => throw "Attempt to read the cdr of a non-pair" [obj]

/-- `op_set_car` and `op_set_cdr`: a field of a pair, and the pair again. -/
def setPair (set : Ref → Ptr → Ptr → Obj) (msg : List UInt8) : VmM Unit := do
  let obj ← vmPop
  let pair ← vmPop
  match ← load pair with
  | .pair car cdr =>
    store pair (set obj car cdr)
    vmPush pair
  | _ => throw msg [obj, pair]

@[inherit_doc setPair] def opSetCar : VmM Unit :=
  setPair throw (fun obj _ cdr => .pair obj cdr)
    "Attempt to set the car of a non-pair or set car to non-object"
@[inherit_doc setPair] def opSetCdr : VmM Unit :=
  setPair throw (fun obj car _ => .pair car obj)
    "Attempt to set the cdr of a non-pair or set cdr to non-object"

/-! ## Vectors

The length of a new block is what the program gives, compared with nothing; an index is compared with the length. -/

/-- `op_make_byte_vector`, `op_make_vector` and `op_make_record`. -/
def makeSized (make : Int64 → VmM Ref) (msg : List UInt8) : VmM Unit := do
  let obj ← vmPop
  match ← load obj with
  | .fixnum length =>
    let obj ← make length
    vmPush obj
  | _ => throw msg [obj]

@[inherit_doc makeSized] def opMakeByteVector : VmM Unit :=
  makeSized throw vmMakeByteVector "Make byte vector requires a number argument."
@[inherit_doc makeSized] def opMakeVector : VmM Unit :=
  makeSized throw vmMakeVector "Make vector requires a number argument."
@[inherit_doc makeSized] def opMakeRecord : VmM Unit :=
  makeSized throw vmMakeRecord "Make record requires a number argument."

/-- `op_vector_length`. -/
def opVectorLength : VmM Unit := do
  let obj ← vmPop
  match ← load obj with
  | .vector length _ | .byteVector length _ =>
    let length ← alloc (.fixnum length)
    vmPush length
  | _ => throw "Attempt to read vector length of non-vector!" [obj]

/-- Whether a C index is one of an array. -/
def indexOf (index : Int64) (size : ℕ) : Option ℕ :=
  if 0 ≤ index.toInt ∧ index.toInt < size then some index.toInt.toNat else none

/-- Write to an array of pointers. -/
def setSlot (a : ℕ) (index : Int64) (obj : Ref) : VmM Unit := do
  let slots ← ofOption (·.arrays[a]?)
  let i ← ofOption fun _ => indexOf index slots.length
  modify fun vm => { vm with arrays := vm.arrays.set a (slots.set i obj) }

/-- Read from an array of pointers. -/
def getSlot (a : ℕ) (index : Int64) : VmM Ptr := do
  let slots ← ofOption (·.arrays[a]?)
  ofOption fun _ => (indexOf index slots.length).bind (slots[·]?)

/-- Write to an array of bytes. -/
def setByte (bs : ℕ) (index integer : Int64) : VmM Unit := do
  let bytes ← ofOption (·.bytes[bs]?)
  let i ← ofOption fun _ => indexOf index bytes.length
  modify fun vm => { vm with bytes := vm.bytes.set bs (bytes.set i integer.toUInt64.toUInt8) }

/-- Read from an array of bytes. -/
def getByte (bs : ℕ) (index : Int64) : VmM UInt8 := do
  let bytes ← ofOption (·.bytes[bs]?)
  ofOption fun _ => (indexOf index bytes.length).bind (bytes[·]?)

/-- `op_index_set`. -/
def opIndexSet : VmM Unit := do
  let vector ← vmPop
  let obj ← vmPop
  let objIndex ← vmPop
  match ← load objIndex with
  | .fixnum index =>
    match ← load vector with
    | .vector length slots | .record length slots =>
      if index ≤ length then setSlot slots index obj
      else throw "Set by index requires a vector." [vector]
    | .byteVector length bytes =>
      if index ≤ length then
        match ← load obj with
        | .fixnum integer => setByte bytes index integer
        | _ => throw "Byte vectors may only contain numbers." [obj]
      else throw "Set by index requires a vector." [vector]
    | _ => throw "Set by index requires a vector." [vector]
  | _ => throw "The index must be a number." [objIndex]

/-- `op_index_ref`. -/
def opIndexRef : VmM Unit := do
  let vector ← vmPop
  let objIndex ← vmPop
  match ← load objIndex with
  | .fixnum index =>
    match ← load vector with
    | .vector length slots | .record length slots =>
      if index ≤ length then
        let obj ← getSlot slots index
        vmPush obj
      else throw "Read by index requires a vector." [vector]
    | .byteVector length bytes =>
      if index ≤ length then
        let byte ← getByte bytes index
        let obj ← alloc (.fixnum byte.toUInt64.toInt64)
        vmPush obj
      else throw "Read by index requires a vector." [vector]
    | _ => throw "Read by index requires a vector." [vector]
  | _ => throw "The index must be a number." [objIndex]

/-- `op_string_byte_vector`: a byte vector over the bytes of the string. -/
def opStringByteVector : VmM Unit := do
  let string ← vmPop
  match ← load string with
  | .string length bytes =>
    let slice ← alloc (.byteVector length bytes)
    vmPush slice
  | _ => throw "str->u8 requires a string argument." [string]

/-- `op_byte_vector_string`: a new string. -/
def opByteVectorString : VmM Unit := do
  let vector ← vmPop
  match ← load vector with
  | .byteVector length bytes =>
    let buf ← ofOption (·.bytes[bytes]?)
    let obj ← vmMakeString buf length
    vmPush obj
  | _ => throw "u8->str requires a bytevector argument." [vector]

/-! ## Jumps and calls

A jump moves in the code of its environment.  A call leaves a closure of the place behind it, for `ret` to go on at. -/

/-- `op_jnf`. -/
def opJnf : VmM Unit := do
  let target ← parseInt
  let obj ← vmPop
  match ← load obj with
  | .bool false => pure ()
  | _ => jump target

/-- `op_jmp`. -/
def opJmp : VmM Unit := do
  let target ← parseInt
  jump target

/-- `op_call`. -/
def opCall : VmM Unit := do
  let target ← parseInt
  let vm ← get
  let closure ← alloc (.closure vm.env)
  vmPush closure
  pushEnv
  jump target

/-- `op_adopt`. -/
def opAdopt : VmM Unit := do
  let parent ← vmPop
  let child ← vmPop
  match ← load parent with
  | .closure parent' =>
    match ← load child with
    | .closure child' =>
      let env ← cloneEnv child' true
      let parentEnv ← getEnv parent'
      editEnv env fun env => { env with parent := parentEnv.parent, bindings := parentEnv.bindings }
      let adopted ← alloc (.closure env)
      vmPush adopted
    | _ => throw "Attempt to adopt non-closure" [child]
  | _ => throw "Attempt to adopt with non-closure" [parent]

/-- `op_proc`. -/
def opProc : VmM Unit := do
  let target ← parseInt
  let vm ← get
  let env ← cloneEnv vm.env false
  editEnv env fun env => { env with ip := jumpTo env.ip target }
  let closure ← alloc (.closure env)
  vmPush closure

/-- `op_jin`: the current bindings and parent are kept. -/
def opJin : VmM Unit := do
  let closure ← vmPop
  match ← load closure with
  | .closure closure =>
    let env ← currentEnv
    switchEnv closure
    updateEnv fun clone => { clone with bindings := env.bindings, parent := env.parent }
  | _ => throw "Attempt to jump to non-closure" [closure]

/-- `op_ret`. -/
def opRet : VmM Unit := do
  let closure ← vmPop
  match ← load closure with
  | .closure closure => switchEnv closure
  | _ => throw "Attempt to jump to non-closure" [closure]

/-- The end of `op_call_in` and `op_tail_call_in`: a child of the closure's environment. -/
def enter (closure : ℕ) : VmM Unit := do
  switchEnv closure
  pushEnv

/-- `op_call_in`. -/
def opCallIn : VmM Unit := do
  let closure ← vmPop
  match ← load closure with
  | .closure closure =>
    let vm ← get
    let ret ← alloc (.closure vm.env)
    vmPush ret
    enter closure
  | _ => throw "Attempt to jump to non-closure" [closure]

/-- `op_tail_call_in`. -/
def opTailCallIn : VmM Unit := do
  let closure ← vmPop
  match ← load closure with
  | .closure closure =>
    let reg2 ← vmPop
    let reg3 ← vmPop
    vmPush reg2
    vmPush reg3
    enter closure
  | _ => throw "Attempt to jump to non-closure" [closure]

/-- `op_continue`. -/
def opContinue : VmM Unit := do
  let target ← parseInt
  updateEnv fun env => { env with handler := true }
  updateEnv fun env => { env with handlerAddr := jumpTo env.ip target }

/-- `op_restore`. -/
def opRestore : VmM Unit := updateEnv fun env => { env with handler := true }

/-! ## Locations

The bindings of an environment are one table, and its parents are looked through in order. -/

/-- `op_bind`. -/
def opBind : VmM Unit := do
  let key ← vmPop
  let value ← vmPop
  match ← load key with
  | .symbol _ bytes =>
    let env ← currentEnv
    hashSet host env.bindings bytes value
  | _ => throw "Attempt to bind with non-symbol" [key, value]

/-- The innermost environment that has a value for a name, and the value. -/
def findBinding (bytes : ℕ) : List ℕ → VmM (Option (Env × Ref))
  | [] => pure none
  | e :: parents => do
    let env ← getEnv e
    match ← hashGet host env.bindings bytes with
    | some value => pure (some (env, value))
    | none => findBinding bytes parents

/-- `op_read`. -/
def opRead : VmM Unit := do
  let key ← vmPop
  match ← load key with
  | .symbol _ bytes =>
    let vm ← get
    match ← findBinding host bytes vm.scopes with
    | some (_, value) => vmPush value
    | none => throw "Attempt to read undefined symbol" [key]
  | _ => throw "Attempt to read with non-symbol" [key]

/-- `op_set`. -/
def opSet : VmM Unit := do
  let key ← vmPop
  let value ← vmPop
  match ← load key with
  | .symbol _ bytes =>
    let vm ← get
    match ← findBinding host bytes vm.scopes with
    | some (env, _) => hashSet host env.bindings bytes value
    | none => throw "Attempt to set undefined symbol" [key, value]
  | _ => throw "Attempt to set with non-symbol" [key, value]

/-- `op_set_exit`. -/
def opSetExit : VmM Unit := do
  let value ← vmPop
  match ← load value with
  | .fixnum integer => modify fun vm => { vm with exitStatus := integer.toInt32 }
  | _ => throw "Attempt to set non-number exit status" [value]

/-! ## The stack

Four of them exchange or copy what is on top, and one counts it. -/

/-- `op_swap`. -/
def opSwap : VmM Unit := do
  let reg1 ← vmPop
  let reg2 ← vmPop
  vmPush reg1
  vmPush reg2

/-- `op_rot`. -/
def opRot : VmM Unit := do
  let reg1 ← vmPop
  let reg2 ← vmPop
  let reg3 ← vmPop
  vmPush reg1
  vmPush reg3
  vmPush reg2

/-- `op_dup_ref`. -/
def opDupRef : VmM Unit := do
  let reg1 ← vmPop
  vmPush reg1
  vmPush reg1

/-- `op_depth`. -/
def opDepth : VmM Unit := do
  let vm ← get
  let reg1 ← alloc (.fixnum (Int64.ofInt vm.depth))
  vmPush reg1

/-- `op_drop`. -/
def opDrop : VmM Unit := do
  let _ ← vmPop

/-! ## Numbers and logic

The arithmetic has one macro, the comparisons another one, and so have the tests of a type. -/

/-- `NUMERIC_OP`. -/
def numericOp (op : Int64 → Int64 → VmM Int64) : VmM Unit := do
  let num2 ← vmPop
  let num1 ← vmPop
  match ← load num1, ← load num2 with
  | .fixnum integer1, .fixnum integer2 =>
    let integer ← op integer1 integer2
    let result ← alloc (.fixnum integer)
    vmPush result
  | _, _ => throw "Attempt to calculate with non-number\n" [num1, num2]

/-- `/` and `%`, which trap on a zero divisor and on an overflow. -/
def divide (op : Int64 → Int64 → Int64) (a b : Int64) : VmM Int64 :=
  if b = 0 ∨ (a = Int64.minValue ∧ b = -1) then undefined else pure (op a b)

@[inherit_doc numericOp] def opAdd : VmM Unit := numericOp throw fun a b => pure (a + b)
@[inherit_doc numericOp] def opSub : VmM Unit := numericOp throw fun a b => pure (a - b)
@[inherit_doc numericOp] def opMul : VmM Unit := numericOp throw fun a b => pure (a * b)
@[inherit_doc numericOp] def opDiv : VmM Unit := numericOp throw (divide (· / ·))
@[inherit_doc numericOp] def opMod : VmM Unit := numericOp throw (divide (· % ·))

/-- Push one of the two booleans. -/
def pushBool (b : Bool) : VmM Unit := pushConstant fun vm => if b then vm.vmTrue else vm.vmFalse

/-- `NUMERIC_LOGIC`. -/
def numericLogic (op : Int64 → Int64 → Bool) : VmM Unit := do
  let num2 ← vmPop
  let num1 ← vmPop
  match ← load num1, ← load num2 with
  | .fixnum integer1, .fixnum integer2 => pushBool (op integer1 integer2)
  | _, _ => throw "Attempt to compare with non-number\n" [num1, num2]

@[inherit_doc numericLogic] def opNumericEqual : VmM Unit := numericLogic throw (· == ·)
@[inherit_doc numericLogic] def opNumericLt : VmM Unit := numericLogic throw fun a b => decide (a < b)
@[inherit_doc numericLogic] def opNumericGt : VmM Unit := numericLogic throw fun a b => decide (b < a)

/-- The first word of the `value` of an object. -/
def word : Obj → UInt64
  | .fixnum integer => integer.toUInt64
  | .bool boolean => if boolean then 1 else 0
  | .char character => character.toUInt64
  | .string length _ | .symbol length _ | .vector length _ | .byteVector length _
  | .record length _ => length.toUInt64
  | .pair car _ => (car.map fun r => host.address (.ref r)).getD 0
  | .empty => 0
  | .closure closure => host.address (.env closure)
  | .library functions _ => (functions.map fun l => host.address (.library l)).getD 0

/-- The `value.string.bytes` of an object as a C string, whatever its type. -/
def rawBytes (obj : Ref) : Obj → VmM (List UInt8)
  | .string _ bytes | .symbol _ bytes | .byteVector _ bytes => cstring bytes
  | .pair _ _ | .vector _ _ | .record _ _ | .library _ _ => ofOption fun vm => host.rawString vm obj
  | _ => undefined

/-- `op_eq`: the type of the first object says how the second one is read. -/
def opEq : VmM Unit := do
  let obj1 ← vmPop
  let obj2 ← vmPop
  let o1 ← load obj1
  let o2 ← load obj2
  match o1 with
  | .fixnum integer => pushBool (integer.toUInt64 == word host o2)
  | .bool boolean => pushBool ((if boolean then 1 else 0) == (word host o2).toUInt8)
  | .char character => pushBool (character == (word host o2).toUInt32)
  | .string _ bytes =>
    let string1 ← cstring bytes
    let string2 ← rawBytes host obj2 o2
    pushBool (string1 == string2)
  | _ => pushBool (obj1 == obj2)

/-- `op_not`. -/
def opNot : VmM Unit := do
  let obj ← vmPop
  match ← load obj with
  | .bool false => pushBool true
  | _ => pushBool false

/-- `TYPE_OP`. -/
def typeOp (test : CellType → Bool) : VmM Unit := do
  let obj ← vmPop
  let o ← load obj
  pushBool (test o.type)

@[inherit_doc typeOp] def opIsFixnum : VmM Unit := typeOp (· == .fixnum)
@[inherit_doc typeOp] def opIsBool : VmM Unit := typeOp (· == .bool)
@[inherit_doc typeOp] def opIsChar : VmM Unit := typeOp (· == .char)
@[inherit_doc typeOp] def opIsString : VmM Unit := typeOp (· == .string)
@[inherit_doc typeOp] def opIsSymbol : VmM Unit := typeOp (· == .symbol)
@[inherit_doc typeOp] def opIsVector : VmM Unit := typeOp (· == .vector)
@[inherit_doc typeOp] def opIsByteVector : VmM Unit := typeOp (· == .byteVector)
@[inherit_doc typeOp] def opIsRecord : VmM Unit := typeOp (· == .record)
@[inherit_doc typeOp] def opIsPair : VmM Unit := typeOp (· == .pair)
@[inherit_doc typeOp] def opIsEmpty : VmM Unit := typeOp (· == .empty)
@[inherit_doc typeOp] def opIsClosure : VmM Unit := typeOp (· == .closure)
@[inherit_doc typeOp] def opIsSelf : VmM Unit :=
  typeOp fun t => t == .fixnum || t == .bool || t == .char || t == .string || t == .vector ||
    t == .byteVector

/-! ## Input and output

Each of these asks the system, and throws where it refuses. -/

/-- `op_output`. -/
def opOutput : VmM Unit := do
  let obj ← vmPop
  printObject host.printer obj

/-- `op_gc_stats`. -/
def opGcStats : VmM Unit := print host.gcStats

/-- `op_slurp`; the process ends when the file cannot be read. -/
def opSlurp : VmM Unit := do
  let obj ← vmPop
  match ← load obj with
  | .string _ bytes =>
    let path ← cstring bytes
    match ← ask (.slurp path) host.slurp with
    | some buf =>
      if buf.length < 2 ^ 63 then
        let bytes ← newBytes (buf ++ [0])
        let obj ← alloc (.string (Int64.ofNat buf.length) bytes)
        vmPush obj
      else undefined
    | none => throwThe Stop .exited
  | _ => throw "Slurp file name not a string!" [obj]

/-- Throw with `errno` and its text. -/
def throwErrno (msg : List UInt8) (err : HostError) : VmM Unit := do
  let reg1 ← alloc (.fixnum err.errno)
  let reg2 ← vmMakeCString err.message
  throw msg [reg1, reg2]

/-- `op_open`. -/
def opOpen : VmM Unit := do
  let write ← vmPop
  let path ← vmPop
  match ← load write with
  | .bool boolean =>
    match ← load path with
    | .string _ bytes =>
      let path ← cstring bytes
      match ← ask (.open path boolean) host.open with
      | .ok fd =>
        let reg1 ← alloc (.fixnum fd)
        vmPush reg1
      | .error err => throwErrno throw "There was an error opening the file" err
    | _ => throw "Open expected a string for path!" [path]
  | _ => throw "Open expected a boolean for write!" [write]

/-- `op_close`. -/
def opClose : VmM Unit := do
  let fdObj ← vmPop
  match ← load fdObj with
  | .fixnum fd =>
    match ← ask (.close fd) host.close with
    | .ok _ => pure ()
    | .error err => throwErrno throw "There was an error closing the file" err
  | _ => throw "Close expects an integer file descriptor!" [fdObj]

/-- `op_fd_write`. -/
def opFdWrite : VmM Unit := do
  let fd ← vmPop
  let num ← vmPop
  let u8 ← vmPop
  match ← load fd with
  | .fixnum fdInt =>
    match ← load num with
    | .fixnum count =>
      match ← load u8 with
      | .byteVector _ vector =>
        let bytes ← ofOption (·.bytes[vector]?)
        match ← ask (.write fdInt bytes count) host.write with
        | .ok written =>
          let reg1 ← alloc (.fixnum written)
          if written ≠ count then throw "Did not write all bytes." [reg1]
          else vmPush reg1
        | .error err => throwErrno throw "An error ocurred while writing." err
      | _ => throw "Read expected a byte vector!" [u8]
    | _ => throw "Read expected a number of bytes to read!" [num]
  | _ => throw "Read expected file descriptor!" [fd]

/-- What `op_fd_read` leaves of a vector that `read` has written to: it is called as long as what was read, whatever
room there is. -/
def readInto (u8 : Ref) (input : List UInt8) : VmM Unit := fun vm =>
  match u8, vm.deref u8 with
  | .obj n, some (.byteVector _ vector) =>
    let room := vm.bytes.getD vector []
    if input.length ≤ room.length then
      .ok ((), { vm with
        bytes := vm.bytes.set vector (input ++ room.drop input.length)
        objs := vm.objs.set n (.byteVector (Int64.ofNat input.length) vector) })
    else .error .undefined
  | _, _ => .error .undefined

/-- `op_fd_read`: the vector is there before anything is read, and stays when nothing can be. -/
def opFdRead : VmM Unit := do
  let fd ← vmPop
  let num ← vmPop
  match ← load fd with
  | .fixnum fdInt =>
    match ← load num with
    | .fixnum count =>
      let u8 ← vmMakeByteVector count
      match ← ask (.read fdInt count) host.read with
      | .ok input =>
        readInto u8 input
        vmPush u8
      | .error err => throwErrno throw "An error ocurred while reading." err
    | _ => throw "Read expected a number of bytes to read!" [num]
  | _ => throw "Read expected a file descriptor!" [fd]

/-! ## Libraries and code

`import` and `call_ext` reach outside of the machine; `asm` and `slurp` bring code in. -/

/-- `binding_alist`: the names of the exports, with their numbers. -/
def bindExports : List (List UInt8 × ExtFunc) → (funcCount : ℕ) → (bindingAlist : Ref) → VmM Ref
  | [], _, bindingAlist => pure bindingAlist
  | (symbol, _) :: exports, funcCount, bindingAlist => do
    let obj ← vmMakeCString symbol
    let obj ← makeSymbol host obj
    let obj2 ← alloc (.fixnum (Int64.ofNat funcCount))
    let reg1 ← cons obj obj2
    let reg2 ← cons reg1 bindingAlist
    bindExports exports (funcCount + 1) reg2

/-- The library of a path that was not imported before, if there is an object for it. -/
def importNew (obj : Ref) (path : ℕ) (name : List UInt8) : VmM (Option Ref) := do
  match ← ask (.dlopen name) host.dlopen with
  | .error msg =>
    throw msg [obj]
    pure none
  | .ok handle =>
    match host.exports handle with
    | .error msg =>
      let lib ← alloc (.library none 0)
      throw msg [obj]
      pure (some lib)
    | .ok exports =>
      let lib ← alloc (.library (some handle) (Int64.ofNat exports.length))
      let importTable := (← get).importTable
      hashSet host importTable path lib
      vmPush lib
      pure (some lib)

/-- The functions of a library; reading the list of one that has none has no meaning. -/
def exportsOf (lib : Ref) : VmM (List (List UInt8 × ExtFunc)) := ofOption fun vm =>
  match vm.deref lib with
  | some (.library (some handle) _) => (host.exports handle).toOption
  | _ => none

/-- The library of a path, which is pushed, if there is an object for it. -/
def importLib (obj : Ref) (path : ℕ) (name : List UInt8) : VmM (Option Ref) := do
  let importTable := (← get).importTable
  match ← hashGet host importTable path with
  | some lib =>
    vmPush lib
    pure (some lib)
  | none => importNew host throw obj path name

/-- `op_import`. -/
def opImport : VmM Unit := do
  let obj ← vmPop
  match ← load obj with
  | .string _ bytes =>
    let name ← cstring bytes
    let name := name ++ text ".so"
    let path ← newBytes (name ++ [0])
    match ← importLib host throw obj path name with
    | some lib =>
      let exports ← exportsOf host lib
      let vm ← get
      let bindingAlist ← bindExports host exports 0 vm.empty
      vmPush bindingAlist
    | none => pure ()
  | _ => throw "Attempt to import with non-string filename" [obj]

/-- The call that `op_call_ext` makes. -/
def callExt (obj lib : Ref) : VmM Unit := do
  match ← load obj, ← load lib with
  | .fixnum func, .library _ funcCount =>
    if func > funcCount then throw "Invalid function number" [obj, lib]
    else
      let exports ← exportsOf host lib
      let (_, funcPtr) ← ofOption fun _ => (indexOf func exports.length).bind (exports[·]?)
      funcPtr.run
  | _, _ => throw "Invalid arguments to call_ext" [obj, lib]

/-- `op_call_ext`: the depth is looked at whatever came before. -/
def opCallExt : VmM Unit := do
  let obj ← vmPop
  let lib ← vmPop
  let depth := (← get).depth
  callExt host throw obj lib
  if (← get).depth ≠ depth then throw "Stack uneven after call_ext" []

/-- A new block of code; what lies behind it is zero. -/
def newCode (bytes : List UInt8) : VmM ℕ := fun vm =>
  .ok (vm.codes.length, { vm with codes := vm.codes ++ [fun i => bytes.getD i 0] })

/-- `op_asm`. -/
def opAsm : VmM Unit := do
  let obj ← vmPop
  match ← load obj with
  | .string _ bytes =>
    let str ← cstring bytes
    match (host.lex str).bind asmString with
    | some written =>
      let codeRef ← newCode written
      let vm ← get
      let env ← cloneEnv vm.env false
      editEnv env fun env => { env with codeRef := some codeRef, ip := 0, length := written.length }
      let closure ← alloc (.closure env)
      vmPush closure
    | none => throwThe Stop .exited
  | _ => throw "Attempt to assemble non-string" [obj]

end

end Insomniac.Vm
