import RegAlloc.Main
import RegAlloc.Proofs.Colouring.State
import RegAlloc.Proofs.Colouring.Invariant
import RegAlloc.Proofs.Colouring.Simplify
import RegAlloc.Proofs.Colouring.Coalesce
import RegAlloc.Proofs.Colouring.Freeze
import RegAlloc.Proofs.Colouring.Run
import RegAlloc.Proofs.Colouring.Worklists
import RegAlloc.Proofs.Catalog
import RegAlloc.Proofs.Colouring.Select
import RegAlloc.Proofs.BlockGraph
import RegAlloc.Proofs.Flow
import RegAlloc.Proofs.Machine
import RegAlloc.Proofs.Assignment
import RegAlloc.Proofs.Reached
import RegAlloc.Proofs.Commit
import RegAlloc.Proofs.Spill.Slot
import RegAlloc.Proofs.Spill.Addressing
import RegAlloc.Proofs.Spill.Instr
import RegAlloc.Proofs.Spill.Run
import RegAlloc.Proofs.Colouring.Change
import RegAlloc.Proofs.Colouring.Termination
import RegAlloc.Proofs.Colouring.Conservative
import RegAlloc.Proofs.Colouring.Significant
import RegAlloc.Proofs.Colouring.Merged
import RegAlloc.Proofs.Allocation
import RegAlloc.Proofs.Spill.Respill
import RegAlloc.Proofs.Spill.Carry
import RegAlloc.Proofs.Spill.Rounds
import RegAlloc.Proofs.Spill.Report
import RegAlloc.Proofs.Spill.Enumeration
import RegAlloc.Proofs.Bracket
import RegAlloc.Proofs.Transparency
import RegAlloc.Proofs.Reading.Program
import RegAlloc.Proofs.Reading.Allocated
import RegAlloc.Proofs.Interference
import RegAlloc.Proofs.Undirected
import RegAlloc.Proofs.Accepted
import RegAlloc.Proofs.Labels
import RegAlloc.Proofs.Loops
import RegAlloc.Proofs.Answers
import RegAlloc.Proofs.Frame
import RegAlloc.Proofs.Removed
import RegAlloc.Proofs.Idempotence
