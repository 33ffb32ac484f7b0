import Asm16.Folder
import Asm16.Main
import Asm16.Proofs.Reporting
import Asm16.Proofs.BitField
import Asm16.Proofs.InstructionTable
import Asm16.Proofs.Codec
import Asm16.Proofs.SymbolTable
import Asm16.Proofs.Binding
import Asm16.Proofs.Resolution
import Asm16.Proofs.Lexical
import Asm16.Proofs.Grammar
import Asm16.Proofs.Pipeline
import Asm16.Proofs.PrintedForm
import Asm16.Proofs.Reassembly
import Asm16.Proofs.Reachability
import Asm16.Proofs.ReportingModes
import Asm16.Proofs.BlockPartition
import Asm16.Proofs.ControlTransfer
import Asm16.Proofs.Symbolization
import Asm16.Proofs.LabelNames
import Asm16.Proofs.LabelledListing
import Asm16.Proofs.ResolvedWords
import Asm16.Proofs.CollectedFailures
import Asm16.Proofs.Relabeling
import Asm16.Proofs.Layout
import Asm16.Proofs.Relocation
import Asm16.Proofs.ImageFiles
import Asm16.Proofs.HexText
import Asm16.Proofs.MadeUpNames
import Asm16.Proofs.AddressSpace
import Asm16.Proofs.TraversalBudget
import Asm16.Proofs.TraversalTermination
import Asm16.Proofs.SymbolSessions
import Asm16.Proofs.SingleLine
import Asm16.Proofs.Literals
import Asm16.Proofs.RangeChecks
