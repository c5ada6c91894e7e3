import ThreadedForth.Text.Split
import ThreadedForth.Number
import ThreadedForth.Cell
import ThreadedForth.Dictionary
import ThreadedForth.Input
import ThreadedForth.Threading
import ThreadedForth.Interpreter
import ThreadedForth.Session
import ThreadedForth.CommandLine.Run
import ThreadedForth.Main
import ThreadedForth.Proofs.WorkStack
import ThreadedForth.Proofs.Containment
import ThreadedForth.Proofs.Compilation
import ThreadedForth.Proofs.Evolution
import ThreadedForth.Proofs.Calls
import ThreadedForth.Proofs.ByValue
import ThreadedForth.Proofs.Tokens
import ThreadedForth.Proofs.Inlining
import ThreadedForth.Proofs.Collecting
import ThreadedForth.Proofs.DroppedLines
import ThreadedForth.Proofs.Portions
import ThreadedForth.Proofs.Cells
import ThreadedForth.Proofs.Invariants
import ThreadedForth.Proofs.Endings
import ThreadedForth.Proofs.Suspension
import ThreadedForth.Proofs.Capture
import ThreadedForth.Proofs.Persistence
import ThreadedForth.Proofs.Growth
import ThreadedForth.Proofs.Defining
import ThreadedForth.Proofs.Listing
import ThreadedForth.Proofs.Widths
import ThreadedForth.Proofs.Conversation
import ThreadedForth.Proofs.Simulation
import ThreadedForth.Proofs.Operands
import ThreadedForth.Proofs.Synonyms
import ThreadedForth.Proofs.Continuation
import ThreadedForth.Proofs.Stepping
import ThreadedForth.Proofs.Remarks
import ThreadedForth.Proofs.Files
import ThreadedForth.Proofs.Hosts
import ThreadedForth.Proofs.Instalments
import ThreadedForth.Proofs.StackEffects
import ThreadedForth.Proofs.Wrapping
import ThreadedForth.Proofs.Division
import ThreadedForth.Proofs.Numerals
import ThreadedForth.Proofs.Histories
import ThreadedForth.Proofs.Queueing
import ThreadedForth.Proofs.LooseNumerals
