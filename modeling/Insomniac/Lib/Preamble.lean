import Insomniac.Asm.Assemble
import Insomniac.Vm.Memory

/-!
# Lib/Preamble — `lib/preamble.asm`

The code in front of every compiled program, token by token.  The routines of `prim-call/cc` are kept
apart, each from its label on.

    proc env, call user-entry · env · … · scheme-call-cc-return … scheme-call-cc · … · user-entry
-/

open Insomniac.Asm Insomniac.Vm

namespace Insomniac.Lib

/-- A token of a program text. -/
abbrev Tok := Token (List UInt8)

/-- What stands before the routines of `prim-call/cc`. -/
def preambleBefore : List Tok :=
  [.jump .proc rfl "env", .jump .call rfl "user-entry",
    .label "env", .op .swap rfl, .op .jin rfl,
    .label "scheme-depth", .op .swap rfl, .op .drop rfl, .op .depth rfl, .op .swap rfl, .op .ret rfl,
    .label "scheme-gc-stats", .op .swap rfl, .op .drop rfl, .op .gcStats rfl, .op .litEmpty rfl, .op .swap rfl,
    .op .ret rfl,
    .label "scheme-car", .op .swap rfl, .op .car rfl, .op .car rfl, .op .swap rfl, .op .ret rfl,
    .label "scheme-cdr", .op .swap rfl, .op .car rfl, .op .cdr rfl, .op .swap rfl, .op .ret rfl,
    .label "scheme-set!", .op .swap rfl, .op .dupRef rfl, .op .car rfl, .op .car rfl, .op .swap rfl, .op .cdr rfl,
    .op .car rfl, .op .set rfl, .op .litEmpty rfl, .op .swap rfl, .op .ret rfl]

/-- `scheme-call-cc-empty`: everything on the stack is dropped. -/
def schemeCallCcEmpty : List Tok :=
  [.label "scheme-call-cc-return", .label "scheme-call-cc-empty", .op .depth rfl, .fixnum 0,
    .op .numericEqual rfl, .jump .jnf rfl "scheme-call-cc-empty-done", .op .drop rfl,
    .jump .jmp rfl "scheme-call-cc-empty"]

@[inherit_doc schemeCallCcEmpty] def schemeCallCcEmptyDone : List Tok :=
  [.label "scheme-call-cc-empty-done", .symbol "stack-save", .op .read rfl]

/-- `scheme-call-cc-restore`: the saved values go on the stack, the last one on top. -/
def schemeCallCcRestore : List Tok :=
  [.label "scheme-call-cc-restore", .op .dupRef rfl, .op .isEmpty rfl,
    .jump .jnf rfl "scheme-call-cc-restore-done", .op .dupRef rfl, .op .car rfl, .op .swap rfl, .op .cdr rfl,
    .jump .jmp rfl "scheme-call-cc-restore"]

@[inherit_doc schemeCallCcRestore] def schemeCallCcRestoreDone : List Tok :=
  [.label "scheme-call-cc-restore-done", .op .drop rfl, .symbol "ret-val", .op .read rfl, .symbol "return",
    .op .read rfl, .op .ret rfl]

/-- `scheme-call-cc-exit`: the exit procedure. -/
def schemeCallCcExit : List Tok :=
  [.label "scheme-call-cc-exit", .op .drop rfl, .op .car rfl, .symbol "ret-val", .op .bind rfl,
    .jump .jmp rfl "scheme-call-cc-return"]

/-- `scheme-call-cc`: where a call of `prim-call/cc` comes in. -/
def schemeCallCc : List Tok :=
  [.label "scheme-call-cc", .op .swap rfl, .op .car rfl, .symbol "proc", .op .bind rfl, .symbol "return",
    .op .bind rfl, .op .litEmpty rfl, .symbol "stack-save", .op .bind rfl]

/-- `scheme-call-cc-save`: everything on the stack is put into a list. -/
def schemeCallCcSave : List Tok :=
  [.label "scheme-call-cc-save", .op .depth rfl, .fixnum 0, .op .numericEqual rfl,
    .jump .jnf rfl "scheme-call-cc-stack-save-exit", .symbol "stack-save", .op .read rfl, .op .swap rfl,
    .op .cons rfl, .symbol "stack-save", .op .set rfl, .jump .jmp rfl "scheme-call-cc-save"]

/-- `scheme-call-cc-stack-save-exit`: the procedure is called with the exit procedure. -/
def schemeCallCcStackSaveExit : List Tok :=
  [.label "scheme-call-cc-stack-save-exit", .op .litEmpty rfl, .jump .proc rfl "scheme-call-cc-exit",
    .op .cons rfl, .symbol "proc", .op .read rfl, .op .callIn rfl]

/-- What the procedure returns to. -/
def schemeCallCcReturned : List Tok :=
  [.symbol "ret-val", .op .bind rfl, .jump .jmp rfl "scheme-call-cc-return"]

/-- The routines of `prim-call/cc`. -/
def preambleCallCc : List Tok :=
  schemeCallCcEmpty ++ (schemeCallCcEmptyDone ++ (schemeCallCcRestore ++ (schemeCallCcRestoreDone ++
    (schemeCallCcExit ++ (schemeCallCc ++ (schemeCallCcSave ++ (schemeCallCcStackSaveExit ++
      schemeCallCcReturned)))))))

/-- What stands behind the routines of `prim-call/cc`. -/
def preambleAfter : List Tok :=
  [.label "scheme-emergency-exit", .op .drop rfl, .op .car rfl, .op .setExit rfl, .jump .jmp rfl "panic",
    .label "user-entry", .op .drop rfl, .symbol "null-environment", .op .bind rfl,
    .jump .proc rfl "env", .symbol "bootstrap-environment", .op .bind rfl,
    .jump .proc rfl "scheme-depth", .symbol "depth", .op .bind rfl,
    .jump .proc rfl "scheme-gc-stats", .symbol "gc-stats", .op .bind rfl,
    .jump .proc rfl "scheme-emergency-exit", .symbol "emergency-exit", .op .bind rfl,
    .jump .proc rfl "scheme-car", .symbol "car", .op .bind rfl,
    .jump .proc rfl "scheme-cdr", .symbol "cdr", .op .bind rfl,
    .jump .proc rfl "scheme-set!", .symbol "set!", .op .bind rfl,
    .jump .proc rfl "scheme-call-cc", .symbol "prim-call/cc", .op .bind rfl,
    .label "_main"]

/-- The preamble, before the rest of a program. -/
def withPreamble (rest : List Tok) : List Tok :=
  preambleBefore ++ (preambleCallCc ++ (preambleAfter ++ rest))

end Insomniac.Lib
