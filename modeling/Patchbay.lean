import Patchbay.Describe
import Patchbay.Document.Entry
import Patchbay.Main
import Patchbay.Proofs.Export
import Patchbay.Proofs.Interleaving
import Patchbay.Proofs.Publication
import Patchbay.Proofs.Reload
import Patchbay.Sink
import Patchbay.Proofs.Akin
import Patchbay.Proofs.Observation
import Patchbay.Proofs.Batch
import Patchbay.Proofs.Rounding
import Patchbay.Proofs.Shortest
import Patchbay.Proofs.Numeral
import Patchbay.Proofs.Printing
import Patchbay.Proofs.Document
import Patchbay.Proofs.Exchange
import Patchbay.Proofs.Literal
import Patchbay.Proofs.Loading
import Patchbay.Proofs.Adoption
import Patchbay.Proofs.Replacement
import Patchbay.Proofs.Routing
import Patchbay.Proofs.Expansion
import Patchbay.Proofs.Identifier
import Patchbay.Proofs.Difference
import Patchbay.Proofs.Removal
import Patchbay.Proofs.Passes
import Patchbay.Proofs.Frame
import Patchbay.Proofs.Directory
import Patchbay.Proofs.Identity
import Patchbay.Proofs.Editing
import Patchbay.Proofs.Interchange
import Patchbay.Proofs.Codec
import Patchbay.Proofs.Passage
import Patchbay.Proofs.Mapping
import Patchbay.Proofs.Telling
import Patchbay.Proofs.Nesting
import Patchbay.Proofs.Handling
import Patchbay.Proofs.Filing
