import Lexicon.Proofs.Bits.Broadword
import Lexicon.Proofs.Bits.Indexing
import Lexicon.Proofs.Bits.Writing
import Lexicon.Proofs.Cascade.Caches
import Lexicon.Proofs.Cascade.Navigation
import Lexicon.Proofs.Cascade.Nodes
import Lexicon.Proofs.Cascade.Resolving
import Lexicon.Proofs.Cascade.Slots
import Lexicon.Proofs.Disk
import Lexicon.Proofs.Search.Auditing
import Lexicon.Proofs.Search.Blocks
import Lexicon.Proofs.Search.Cursor
import Lexicon.Proofs.Search.Numbers
import Lexicon.Proofs.Search.Order
import Lexicon.Proofs.Search.Safety
import Lexicon.Proofs.Search.Zeros
import Lexicon.Proofs.Sorting.InPlace
import Lexicon.Proofs.Totals
import Lexicon.Proofs.Wire.Packed
import Lexicon.Proofs.Wire.Sizes
