import RegAlloc.Instr.Printer
import RegAlloc.Program.Basic

/-!
# Writing programs

One line for each global, label and instruction. A function stands in braces, with an empty line in
front of it unless it comes first, and its frame size in a comment unless it is zero.
-/

namespace RegAlloc

open Text

/-- The label and the instructions. -/
def Block.lines (b : Block) : List String :=
  (b.label ++ ":") :: b.code.map fun i ↦ "\t" ++ i.text

/-- The blocks in braces. -/
def Function.lines (f : Function) : List String :=
  ("fn " ++ f.name ++ " \x7b") ::
    (if f.frame.size = 0 then [] else ["\t# frame " ++ toString f.frame.size]) ++
    f.blocks.flatMap Block.lines ++ ["\x7d"]

/-- The text of a function. -/
def Function.text (f : Function) : String :=
  unlines f.lines

/-- The name and the value. -/
def Global.line (g : Global) : String :=
  "global " ++ g.name ++ " = " ++ immText g.value

/-- The functions, each but the first with an empty line in front of it. -/
def functionLines : List Function → List String
  | [] => []
  | f :: fs => f.lines ++ fs.flatMap fun f ↦ "" :: f.lines

/-- The globals, and the functions behind them. -/
def Program.lines (p : Program) : List String :=
  p.globals.map Global.line ++
    (if p.globals.isEmpty then functionLines p.functions
    else p.functions.flatMap fun f ↦ "" :: f.lines)

/-- The text of a program. -/
def Program.text (p : Program) : String :=
  unlines p.lines

end RegAlloc
