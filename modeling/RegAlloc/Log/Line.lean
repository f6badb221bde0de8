/-!
# Log lines

A line of the log has a level, the part of the allocator that it comes from, and a message.
-/

namespace RegAlloc

/-- How much detail a line is about. -/
inductive LogLevel where
  | info
  | debug
  | trace
  deriving DecidableEq, Repr

/-- How often verbosity has to be asked for before lines of the level are shown. -/
def LogLevel.verbosity : LogLevel → Nat
  | info => 1
  | debug => 2
  | trace => 3

def LogLevel.name : LogLevel → String
  | info => "INFO"
  | debug => "DEBUG"
  | trace => "TRACE"

/-- The parts of the allocator that log. -/
inductive LogSource where
  | driver
  | reader
  | blockGraph
  | program
  | slots
  | bracket
  | rounds
  | flow
  | liveness
  | build
  | graph
  | worklist
  | coalesce
  | freeze
  | select
  | commit
  deriving DecidableEq, Repr

/-- How a part of the allocator is named in the log. -/
def LogSource.name : LogSource → String
  | driver => "rvra_lib::driver"
  | reader => "rvra_lib::backend::asm::parse_asm"
  | blockGraph => "rvra_lib::backend::asm::control_flow_graph"
  | program => "rvra_lib::backend::register_allocation"
  | slots => "rvra_lib::backend::register_allocation::register_interface"
  | bracket => "rvra_lib::backend::register_allocation::callee_saved"
  | rounds => "rvra_lib::backend::register_allocation::iterated::allocator"
  | flow => "rvra_lib::backend::register_allocation::iterated::flow_graph"
  | liveness => "rvra_lib::backend::register_allocation::iterated::live_analysis"
  | build => "rvra_lib::backend::register_allocation::iterated::build"
  | graph => "rvra_lib::backend::register_allocation::iterated::graph"
  | worklist => "rvra_lib::backend::register_allocation::iterated::worklist"
  | coalesce => "rvra_lib::backend::register_allocation::iterated::coalesce"
  | freeze => "rvra_lib::backend::register_allocation::iterated::freeze"
  | select => "rvra_lib::backend::register_allocation::iterated::select"
  | commit => "rvra_lib::backend::register_allocation::iterated::write_back"

/-- A line of the log. -/
structure LogLine where
  level : LogLevel
  source : LogSource
  message : String
  deriving DecidableEq, Repr

/-- The text of the line. -/
def LogLine.text (line : LogLine) : String :=
  line.level.name ++ " - " ++ line.source.name ++ " - " ++ line.message

end RegAlloc
