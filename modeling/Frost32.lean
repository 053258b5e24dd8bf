import Frost32.Hdl.ArithlogCorrect
import Frost32.Hdl.Completion
import Frost32.Hdl.Decoding
import Frost32.Hdl.Stalls
import Frost32.Hdl.MultiCycle
import Frost32.Hdl.Refinement
import Frost32.Hdl.WaitForMem
import Frost32.Hdl.Interrupts
import Frost32.Asm.Expressions
import Frost32.Asm.Emission
import Frost32.Asm.Effects
import Frost32.Asm.Items
import Frost32.Lib.BlockTree
import Frost32.Lib.LexicalScope
import Frost32.Asm.Steps
import Frost32.Asm.Layout
import Frost32.Asm.Scopes
import Frost32.Asm.LabelPasses
import Frost32.Asm.Scoping
import Frost32.Asm.Image
import Frost32.Asm.Disassembler
import Frost32.Asm.Listing
import Frost32.Asm.Format
import Frost32.Asm.Pseudo
import Frost32.Asm.DocWords
import Frost32.Asm.Accepts
import Frost32.Hdl.Muli
import Frost32.Hdl.Calls
import Frost32.Hdl.EveryRun
import Frost32.Hdl.Multiplications
import Frost32.Hdl.CallRuns
import Frost32.Hdl.Bus
import Frost32.ByteMemory
import Frost32.Hdl.SubWord
import Frost32.Hdl.Divisions
import Frost32.Asm.Immediates
import Frost32.Asm.Branches
import Frost32.Lib.Readmemh
import Frost32.Asm.MemoryImage
import Frost32.Asm.DisassembleWord
import Frost32.Asm.ExprWords
import Frost32.Asm.ExprChains
import Frost32.Asm.ExprAmbiguity
import Frost32.Asm.ExprRegroup
import Frost32.Asm.ExprValues
import Frost32.Asm.ExprMeanings
import Frost32.Asm.Errors
import Frost32.Asm.Duplicates
import Frost32.Asm.KnownLabels
import Frost32.Asm.ScopeWalk
import Frost32.Hdl.DividerLimit
import Frost32.Hdl.LatestPosted
import Frost32.Asm.Stacks
import Frost32.Asm.Divisors
import Frost32.Hdl.Timing
import Frost32.Asm.Execution
import Frost32.Hdl.Transparency
import Frost32.Lib.MaximalMunch
import Frost32.Asm.Lexer
import Frost32.Asm.LineTokens
import Frost32.Asm.Parser
import Frost32.Asm.ListingText
import Frost32.Asm.Reassembly
import Frost32.Asm.Renaming
import Frost32.Asm.RenamedRuns
import Frost32.Asm.Interrupted
