/-
  File:      LsePc/Tools/OcdAs.lean
  Subject:   The assembler of the On-Chip Debug unit (sw/tools/ocd-as): what it
             does with a parsed source.

  * `Op`, `Operation`, `Instr`, `Directive`, `Statement`: ast.ml. The fields the
    analysis assigns (`op`, `offset`) are fields of the statement it returns;
  * `Context`, `Contexts`: context.ml. A `context ref` is an index into `heap`;
  * `analyse`: analysis.ml, the first pass: operands, offsets, labels;
  * `synth`: synth.ml, the second pass: the words;
  * `outputCheader`: cheader.ml, the arrays that are written.

  Both passes stop at the first error: `err` prints a line and exits, the two
  exceptions of the standard library are not caught. An OCaml integer is an
  `Int` here, `land` with a mask of ones is the remainder.
-/
import LsePc.Lib.Pass
import Mathlib.Algebra.Order.Ring.Nat
import Mathlib.Algebra.Ring.Int.Defs
import Mathlib.Logic.Function.Basic

namespace LsePc.Tools

open LsePc.Lib

/-! ## 1. Syntax (ast.ml) -/

inductive Operation where
  -- OCD control
  | attach | detach | exit
  -- Load / store
  | ldi (d s : Int) | mov (d s : Int)
  | ldcmp (d : Int) | ldd (d : Int) | ldal (d : Int) | ldah (d : Int) | ldwr (d : Int)
  | lddc (d : Int) | ldmio (d : Int) | clr (d : Int) | std (d : Int)
  -- CPU control
  | start | reset | waitads | waitlock | waitio | ready | hold | int | nmi
  -- Flow control
  | cmp (d : Int) | beq | bne | ba
  -- Misc
  | nop | ud
  deriving DecidableEq, Repr

inductive Op where
  | int (i : Int)
  | id (i : String)
  | noOp
  deriving DecidableEq, Repr

/-- `loc` is whatever the parser puts there to locate a message. -/
structure Instr (L : Type) where
  label : Option String
  mnem : String
  d : Op
  s : Op
  offset : Int := 0
  op : Operation := .ud
  loc : L
  deriving DecidableEq, Repr

structure Directive (L : Type) where
  dir : String
  args : List Op
  loc : L
  deriving DecidableEq, Repr

inductive Statement (L : Type) where
  | instr (i : Instr L)
  | directive (d : Directive L)
  deriving DecidableEq, Repr

/-- How a run ends early: `err`, `failwith`, an array access out of bounds. -/
inductive AsError (L : Type) where
  | err (loc : L) (msg : String)
  | failure (msg : String)
  | outOfBounds
  deriving DecidableEq, Repr

/-! ## 2. Contexts (context.ml) -/

/-- `Hashtbl.t` used with `add` and `find` only: the newest binding first. -/
abbrev Hashtbl (α : Type) := List (String × α)

def Hashtbl.add {α : Type} (t : Hashtbl α) (k : String) (v : α) : Hashtbl α := (k, v) :: t

def Hashtbl.find {α : Type} (t : Hashtbl α) (k : String) : Option α := List.lookup k t

structure Context where
  labels : Hashtbl Int
  cursor : Int
  progMem : Vector Int 256

def createContext : Context := { labels := [], cursor := 0, progMem := Vector.replicate 256 0 }

/-- `prog_mem.(i) <- v`. -/
def Context.store {L : Type} (x : Context) (i v : Int) : Except (AsError L) Context :=
  if h : 0 ≤ i ∧ i < 256 then
    .ok { x with progMem := x.progMem.set i.toNat v (by omega) }
  else .error .outOfBounds

/-- `prog_mem.(i)`. -/
def Context.read (x : Context) (i : Int) : Option Int :=
  if h : 0 ≤ i ∧ i < 256 then some x.progMem[i.toNat] else none

/-- A `context ref`. -/
abbrev Ref := Nat

/-- `contexts`, with the references made so far (those below `fresh`) and what they hold. -/
structure Contexts where
  const : Hashtbl Int
  funcs : Hashtbl Ref
  ctxt : Ref
  heap : Ref → Context
  fresh : Ref

def createContexts : Contexts :=
  { const := (List.range 32).foldl (fun t (i : Nat) => t.add s!"R{i}" i) []
    funcs := []
    ctxt := 0
    heap := fun _ => createContext
    fresh := 1 }

namespace Contexts

/-- `!(ctxts.ctxt)`. -/
def cur (c : Contexts) : Context := c.heap c.ctxt

/-- `!(ctxts.ctxt)` after assignments to its fields. -/
def setCur (c : Contexts) (x : Context) : Contexts :=
  { c with heap := Function.update c.heap c.ctxt x }

/-- `ctxts.ctxt <- ref (create_context ()); Hashtbl.add ctxts.funcs i ctxts.ctxt`. -/
def newFunc (c : Contexts) (i : String) : Contexts :=
  { c with
    ctxt := c.fresh
    heap := Function.update c.heap c.fresh createContext
    fresh := c.fresh + 1
    funcs := c.funcs.add i c.fresh }

end Contexts

/-! ## 3. The first pass (analysis.ml) -/

section
variable {L : Type}

def getop (c : Contexts) (loc : L) : Op → Except (AsError L) Int
  | .int i => .ok i
  | .id i =>
    match c.const.find i with
    | some v => .ok v
    | none => .error (.err loc s!"constant not defined: {i}")
  | .noOp => .error (.failure "getop")

/-- The `match instr.mnem` of `analyse_instr`. The arguments of a constructor are
    evaluated from the right. -/
def operation (c : Contexts) (i : Instr L) : Except (AsError L) Operation :=
  match i.mnem with
  | "ATTACH" => .ok .attach
  | "DETACH" => .ok .detach
  | "EXIT" => .ok .exit
  | "LDI" => do
    let s ← getop c i.loc i.s
    let d ← getop c i.loc i.d
    return .ldi d s
  | "MOV" => do
    let s ← getop c i.loc i.s
    let d ← getop c i.loc i.d
    return .mov d s
  | "LDCMP" => return .ldcmp (← getop c i.loc i.d)
  | "CLR" => return .clr (← getop c i.loc i.d)
  | "LDD" => return .ldd (← getop c i.loc i.d)
  | "LDAL" => return .ldal (← getop c i.loc i.d)
  | "LDAH" => return .ldah (← getop c i.loc i.d)
  | "LDWR" => return .ldwr (← getop c i.loc i.d)
  | "LDDC" => return .lddc (← getop c i.loc i.d)
  | "LDMIO" => return .ldmio (← getop c i.loc i.d)
  | "STD" => return .std (← getop c i.loc i.d)
  | "START" => .ok .start
  | "RESET" => .ok .reset
  | "WAITADS" => .ok .waitads
  | "WAITLOCK" => .ok .waitlock
  | "WAITIO" => .ok .waitio
  | "READY" => .ok .ready
  | "HOLD" => .ok .hold
  | "INT" => .ok .int
  | "NMI" => .ok .nmi
  | "CMP" => return .cmp (← getop c i.loc i.d)
  | "BEQ" => .ok .beq
  | "BNE" => .ok .bne
  | "BA" => .ok .ba
  | "NOP" => .ok .nop
  | "" => .ok .ud
  | x => .error (.err i.loc s!"Undefined instruction: {x}")

/-- How far an operation moves the cursor. -/
def Operation.size : Operation → Int
  | .ldi _ _ => 2
  | .ud => 0
  | _ => 1

def analyseInstr (c : Contexts) (i : Instr L) : Except (AsError L) (Contexts × Instr L) := do
  let op ← operation c i
  let i := { i with op := op, offset := c.cur.cursor }
  let x := { c.cur with cursor := c.cur.cursor + i.op.size }
  let x := match i.label with
    | some l => { x with labels := x.labels.add l i.offset }
    | none => x
  return (c.setCur x, i)

def dirDefine (c : Contexts) (loc : L) : List Op → Except (AsError L) Contexts
  | [.id i, h2] => do return { c with const := c.const.add i (← getop c loc h2) }
  | _ => .error (.err loc "Expected: .define [NAME] [VALUE]")

def dirOrg (c : Contexts) (loc : L) : List Op → Except (AsError L) Contexts
  | [.int i] => .ok (c.setCur { c.cur with cursor := i })
  | _ => .error (.err loc "Expected: .org [INTEGER]")

def dirFunc (c : Contexts) (loc : L) : List Op → Except (AsError L) Contexts
  | [.id i] => .ok (c.newFunc i)
  | _ => .error (.err loc "Expected: .func [NAME]")

def analyseDir (c : Contexts) (d : Directive L) : Except (AsError L) Contexts :=
  match d.dir with
  | ".define" => dirDefine c d.loc d.args
  | ".org" => dirOrg c d.loc d.args
  | ".func" => dirFunc c d.loc d.args
  | x => .error (.err d.loc s!"Unimplemented directive: {x}")

def analyseStatement (c : Contexts) :
    Statement L → Except (AsError L) (Contexts × Statement L)
  | .instr i => do
    let (c, i) ← analyseInstr c i
    return (c, .instr i)
  | .directive d => return (← analyseDir c d, .directive d)

def analyse : Contexts → List (Statement L) → Except (AsError L) (Contexts × List (Statement L)) :=
  annotate analyseStatement

/-! ## 4. The second pass (synth.ml) -/

def opOcdCtl : Nat := 0 <<< 5
def opLdSt : Nat := 1 <<< 5
def opCpuCtl : Nat := 2 <<< 5
def opFlowCtl : Nat := 3 <<< 5
def opMisc : Nat := 7 <<< 5

def opAttach : Nat := opOcdCtl ||| 0b00010
def opDetach : Nat := opOcdCtl ||| 0b00011
def opExit : Nat := opOcdCtl ||| 0b00000

def opLdi : Nat := opLdSt ||| 0b00000
def opMov : Nat := opLdSt ||| 0b00001
def opLdd : Nat := opLdSt ||| 0b00100
def opLdal : Nat := opLdSt ||| 0b00010
def opLdah : Nat := opLdSt ||| 0b00011
def opLdwr : Nat := opLdSt ||| 0b00101
def opLddc : Nat := opLdSt ||| 0b00110
def opLdmio : Nat := opLdSt ||| 0b00111
def opLdcmp : Nat := opLdSt ||| 0b01000
def opClr : Nat := opLdSt ||| 0b01001
def opStd : Nat := opLdSt ||| 0b10100

def opStart : Nat := opCpuCtl ||| 0b00000
def opReset : Nat := opCpuCtl ||| 0b00001
def opWaitads : Nat := opCpuCtl ||| 0b00010
def opWaitlock : Nat := opCpuCtl ||| 0b01000
def opWaitio : Nat := opCpuCtl ||| 0b01001
def opReady : Nat := opCpuCtl ||| 0b00011
def opInt : Nat := opCpuCtl ||| 0b00100
def opNmi : Nat := opCpuCtl ||| 0b00101
def opHold : Nat := opCpuCtl ||| 0b00110

def opCmp : Nat := opFlowCtl ||| 0b00000
def opBa : Nat := opFlowCtl ||| 0b10000
def opBeq : Nat := opFlowCtl ||| 0b10001
/-- Defined by synth.ml and used nowhere in it. -/
def opBne : Nat := opFlowCtl ||| 0b10011

def opNop : Nat := opMisc ||| 0b11111

/-- `v land (2 ^ n - 1)`. -/
def low (n : Nat) (v : Int) : Nat := (v % 2 ^ n).toNat

def opcode (i : Nat) (d s : Int) : Nat := (i <<< 8) ||| ((low 4 s <<< 4) ||| low 4 d)

def opcodeAddr (i : Nat) (addr : Int) : Nat := (i <<< 8) ||| low 8 addr

def getAddr (x : Context) (loc : L) : Op → Except (AsError L) Int
  | .int i => .ok i
  | .id i =>
    match x.labels.find i with
    | some v => .ok v
    | none => .error (.err loc s!"label not defined: {i}")
  | .noOp => .error (.err loc "get_addr: NoOp")

def synthInstr (x : Context) (i : Instr L) : Except (AsError L) Context := do
  let (x, op) ← match i.op with
    | .attach => pure (x, opcode opAttach 0 0)
    | .detach => pure (x, opcode opDetach 0 0)
    | .exit => pure (x, opcode opExit 0 0)
    | .ldi d s => do
      let x ← x.store (i.offset + 1) s
      pure (x, opcode opLdi d 0)
    | .mov d s => pure (x, opcode opMov d s)
    | .ldcmp d => pure (x, opcode opLdcmp 0 d)
    | .ldd d => pure (x, opcode opLdd d 0)
    | .ldal d => pure (x, opcode opLdal d 0)
    | .ldah d => pure (x, opcode opLdah d 0)
    | .ldwr d => pure (x, opcode opLdwr d 0)
    | .lddc d => pure (x, opcode opLddc d 0)
    | .ldmio d => pure (x, opcode opLdmio d 0)
    | .clr d => pure (x, opcode opClr d 0)
    | .std d => pure (x, opcode opStd 0 d)
    | .start => pure (x, opcode opStart 0 0)
    | .reset => pure (x, opcode opReset 0 0)
    | .waitads => pure (x, opcode opWaitads 0 0)
    | .waitlock => pure (x, opcode opWaitlock 0 0)
    | .waitio => pure (x, opcode opWaitio 0 0)
    | .ready => pure (x, opcode opReady 0 0)
    | .hold => pure (x, opcode opHold 0 0)
    | .int => pure (x, opcode opInt 0 0)
    | .nmi => pure (x, opcode opNmi 0 0)
    | .cmp d => pure (x, opcode opCmp 0 d)
    | .ba => do pure (x, opcodeAddr opBa (← getAddr x i.loc i.d))
    | .beq => do pure (x, opcodeAddr opBeq (← getAddr x i.loc i.d))
    -- the source has `op_beq` here
    | .bne => do pure (x, opcodeAddr opBeq (← getAddr x i.loc i.d))
    | .nop => pure (x, opcode opNop 0xFF 0xFF)
    | .ud => .error (.err i.loc "Undefined instruction")
  x.store i.offset op

def synthStatement (c : Contexts) : Statement L → Except (AsError L) Contexts
  | .instr i => if i.op ≠ .ud then do return c.setCur (← synthInstr c.cur i) else .ok c
  | .directive d =>
    if d.dir = ".func" then
      match d.args with
      | [.id i] =>
        match c.funcs.find i with
        | some r => .ok { c with ctxt := r }
        | none => .error (.err d.loc "synth func")
      | _ => .error (.err d.loc "synth func")
    else .ok c

def synth (c : Contexts) (ast : List (Statement L)) : Except (AsError L) Contexts :=
  ast.foldlM synthStatement c

/-! ## 5. The program (main.ml) -/

/-- `parse_file` after the parser. -/
def assemble (ast : List (Statement L)) : Except (AsError L) Contexts := do
  let (c, ast) ← analyse createContexts ast
  synth c ast

/-- The context of a function of the assembled program. -/
def Contexts.func (c : Contexts) (f : String) : Option Context :=
  (c.funcs.find f).map c.heap

/-! ## 6. The header (cheader.ml) -/

/-- The two bytes printed of a word: `opcode land 0xFF` and `opcode lsr 8`, of an
    integer of 63 bits. -/
def row (opcode : Int) : Nat × Nat := (low 8 opcode, low 63 opcode >>> 8)

/-- The array of a function, without the text around it. -/
def outputFunc (x : Context) : Except (AsError L) (List (Nat × Nat)) :=
  (List.range x.cursor.toNat).mapM fun i =>
    if h : i < 256 then .ok (row x.progMem[i]) else .error .outOfBounds

/-- The arrays of the header. `Hashtbl.iter` promises no order and visits every binding. -/
def outputCheader (c : Contexts) : Except (AsError L) (List (String × List (Nat × Nat))) :=
  c.funcs.mapM fun (name, ctxt) => do return (name, ← outputFunc (c.heap ctxt))

/-- `main` after the parser. -/
def main (ast : List (Statement L)) : Except (AsError L) (List (String × List (Nat × Nat))) := do
  let c ← assemble ast
  outputCheader c

end

end LsePc.Tools
