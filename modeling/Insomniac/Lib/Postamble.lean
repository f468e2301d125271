import Insomniac.Lib.Preamble

/-!
# Lib/Postamble — `lib/postamble.asm`

The code behind every compiled program, token by token, each routine from its label on.

    … program ── "Returned: " out ── call stack_dump ── jmp exit · panic: · stack_dump: · … · exit:
-/

open Insomniac.Asm Insomniac.Vm

namespace Insomniac.Lib

/-- What a program comes to with its value. -/
def returned : List Tok :=
  [.char 10, .op .output Op.noOperand, .char 10, .op .output Op.noOperand,
    .string "-----------------------------------", .op .output Op.noOperand, .char 10, .op .output Op.noOperand,
    .string "Returned: ", .op .output Op.noOperand, .op .output Op.noOperand, .char 10, .op .output Op.noOperand,
    .jump .call Op.aTarget "stack_dump", .jump .jmp Op.aTarget "exit"]

/-- `panic`. -/
def panicDump : List Tok :=
  [.label "panic", .char 10, .op .dupRef Op.noOperand, .op .output Op.noOperand, .op .output Op.noOperand,
    .string "Something has gone wrong!", .op .output Op.noOperand, .char 10, .op .dupRef Op.noOperand,
    .op .output Op.noOperand, .op .output Op.noOperand, .jump .call Op.aTarget "stack_dump",
    .jump .jmp Op.aTarget "exit"]

/-- `stack_dump`. -/
def stackDump : List Tok :=
  [.label "stack_dump", .string "Dumping Stack", .op .output Op.noOperand, .char 10, .op .output Op.noOperand,
    .op .litEmpty Op.noOperand, .symbol "stack-save", .op .bind Op.noOperand]

/-- `stack_dump_loop`: all but the return address is printed and put into a list. -/
def stackDumpLoop : List Tok :=
  [.label "stack_dump_loop", .op .depth Op.noOperand, .fixnum 1, .op .sub Op.noOperand, .fixnum 0,
    .op .numericEqual Op.noOperand, .jump .jnf Op.aTarget "stack_dump_exit", .op .swap Op.noOperand,
    .op .dupRef Op.noOperand, .symbol "stack-save", .op .read Op.noOperand, .op .swap Op.noOperand,
    .op .cons Op.noOperand, .symbol "stack-save", .op .set Op.noOperand, .op .output Op.noOperand, .char 10,
    .op .output Op.noOperand, .jump .jmp Op.aTarget "stack_dump_loop"]

/-- `stack_dump_exit`. -/
def stackDumpExit : List Tok :=
  [.label "stack_dump_exit", .char 10, .op .output Op.noOperand, .string "Empty", .op .output Op.noOperand, .char 10,
    .op .output Op.noOperand, .symbol "stack-save", .op .read Op.noOperand]

/-- `stack_dump_restore`: the values of the list go back below the return address. -/
def stackDumpRestore : List Tok :=
  [.label "stack_dump_restore", .op .dupRef Op.noOperand, .op .isEmpty Op.noOperand,
    .jump .jnf Op.aTarget "stack_dump_done", .op .dupRef Op.noOperand, .op .car Op.noOperand, .op .rot Op.noOperand,
    .op .cdr Op.noOperand, .jump .jmp Op.aTarget "stack_dump_restore"]

/-- `stack_dump_done`. -/
def stackDumpDone : List Tok := [.label "stack_dump_done", .op .drop Op.noOperand, .op .ret Op.noOperand]

/-- `lib/postamble.asm`. -/
def postamble : List Tok :=
  returned ++ (panicDump ++ (stackDump ++ (stackDumpLoop ++ (stackDumpExit ++ (stackDumpRestore ++
    (stackDumpDone ++ [.label "exit"]))))))

end Insomniac.Lib
