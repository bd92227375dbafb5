import Verbatim.Call
import Verbatim.Collection
import Verbatim.Database
import Verbatim.Diagnostic.Rules
import Verbatim.Facade
import Verbatim.Green.Dump
import Verbatim.Proofs.Acceptance
import Verbatim.Proofs.Answering
import Verbatim.Proofs.Boundaries
import Verbatim.Proofs.Diagnosing
import Verbatim.Proofs.Fields
import Verbatim.Proofs.Flattening
import Verbatim.Proofs.Height
import Verbatim.Proofs.Keywords
import Verbatim.Proofs.Listing
import Verbatim.Proofs.Lossless
import Verbatim.Proofs.Pinpointing
import Verbatim.Proofs.Placeholders
import Verbatim.Proofs.Positions
import Verbatim.Proofs.Precedence
import Verbatim.Proofs.Reclaiming
import Verbatim.Proofs.Recovery
import Verbatim.Proofs.Rediagnosing
import Verbatim.Proofs.Respacing
import Verbatim.Proofs.Revising
import Verbatim.Proofs.Rounds
import Verbatim.Proofs.Rows
import Verbatim.Proofs.Scanning
import Verbatim.Proofs.Searching
import Verbatim.Proofs.Sharing
import Verbatim.Proofs.Succession
import Verbatim.Proofs.Synchronizing
import Verbatim.Proofs.Taking
import Verbatim.Proofs.Tiling
import Verbatim.Proofs.Transparency
import Verbatim.Proofs.Traversing
import Verbatim.Proofs.Unshared
import Verbatim.Proofs.Validating
import Verbatim.Proofs.Validity
import Verbatim.Proofs.Wrapping
import Verbatim.Text.Line
import Verbatim.Validation
import Verbatim.View.Dump
import Verbatim.View.Neighbour
import Verbatim.View.Search
