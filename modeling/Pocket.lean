import Pocket.Casebook.Load
import Pocket.Main
import Pocket.Proofs.Checked
import Pocket.Proofs.Compiled
import Pocket.Proofs.Emission
import Pocket.Proofs.Emitted
import Pocket.Proofs.Execution
import Pocket.Proofs.Glyphs
import Pocket.Proofs.Grammar
import Pocket.Proofs.Grammatical
import Pocket.Proofs.Labels
import Pocket.Proofs.LexerExact
import Pocket.Proofs.Lexical
import Pocket.Proofs.Machine
import Pocket.Proofs.ParserComplete
import Pocket.Proofs.ParserSound
import Pocket.Proofs.RawBlocks
import Pocket.Proofs.Reachability
import Pocket.Proofs.Readers
import Pocket.Proofs.Resolution
import Pocket.Proofs.Simulation
import Pocket.Proofs.Trees
import Pocket.Proofs.Pruning
import Pocket.Proofs.Unplaced
import Pocket.Proofs.LayoutFree
import Pocket.Proofs.Decoding
import Pocket.Proofs.Expansion
import Pocket.Proofs.Pieces
import Pocket.Proofs.RawKept
import Pocket.Proofs.Scheduling
import Pocket.Proofs.Worklist
import Pocket.Proofs.Blame
import Pocket.Proofs.Diagnosed
import Pocket.Proofs.Joined
import Pocket.Proofs.OrderFree
import Pocket.Proofs.Culprits
import Pocket.Proofs.Binding
import Pocket.Proofs.Modular
import Pocket.Proofs.Printing
import Pocket.Proofs.ReadBack
import Pocket.Proofs.WordRuns
import Pocket.Proofs.Verbatim
import Pocket.Proofs.Reading
import Pocket.Proofs.Inclusions
import Pocket.Proofs.LineNumbers
import Pocket.Proofs.Sinks
import Pocket.Proofs.Calls
import Pocket.Proofs.Trimming
import Pocket.Proofs.Renaming
import Pocket.Proofs.TwoReadings
import Pocket.Proofs.Parameters
import Pocket.Proofs.Directives
import Pocket.Proofs.Mentions
import Pocket.Proofs.Commented
import Pocket.Proofs.LineComments
import Pocket.Proofs.TableRuns
import Pocket.Proofs.Loads
import Pocket.Proofs.Operands
import Pocket.Proofs.InstructionLines
import Pocket.Proofs.ListingRead
import Pocket.Proofs.Rewritten
import Pocket.Proofs.Endings
import Pocket.Proofs.Numerals
import Pocket.Proofs.Literals
import Pocket.Proofs.Respelled
import Pocket.Proofs.Patterns
import Pocket.Proofs.Chunkwise
import Pocket.Proofs.ExternalNames
import Pocket.Proofs.Casebooks
import Pocket.Proofs.Paths
import Pocket.Proofs.BatchOutputs
import Pocket.Proofs.Disks
import Pocket.Proofs.BatchFiles
import Pocket.Proofs.Layouts
import Pocket.Proofs.Documents
import Pocket.Proofs.StoredProfiles
import Pocket.Proofs.Scanning
import Pocket.Proofs.TokenGroups
import Pocket.Proofs.Leftovers
import Pocket.Proofs.WholeBlocks
import Pocket.Proofs.AsmPlaces
