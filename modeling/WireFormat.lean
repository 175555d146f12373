import WireFormat.Layout.Canonical
import WireFormat.Layout.Recursive
import WireFormat.Layout.Schema
import WireFormat.Proofs.ByteOrders
import WireFormat.Proofs.Collisions
import WireFormat.Proofs.Construction
import WireFormat.Proofs.Delimiting
import WireFormat.Proofs.ExactFit
import WireFormat.Proofs.Exactness
import WireFormat.Proofs.Faults
import WireFormat.Proofs.FieldOrder
import WireFormat.Proofs.FirstFailure
import WireFormat.Proofs.Growth
import WireFormat.Proofs.LeastWidth
import WireFormat.Proofs.NameMatching
import WireFormat.Proofs.Nesting
import WireFormat.Proofs.NormalForm
import WireFormat.Proofs.Operations
import WireFormat.Proofs.Outputs
import WireFormat.Proofs.Provenance
import WireFormat.Proofs.Reception
import WireFormat.Proofs.Reencoding
import WireFormat.Proofs.SchemaExchange
import WireFormat.Proofs.TextFaults
import WireFormat.Proofs.ValueExchange
import WireFormat.Proofs.WritingBack
import WireFormat.Schema.Codec
import WireFormat.Schema.Equality
import WireFormat.Schema.Exchange
import WireFormat.Value.Equality
import WireFormat.Value.Exchange
