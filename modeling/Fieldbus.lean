import Fieldbus.Binary32.Bits
import Fieldbus.Binary32.Text
import Fieldbus.Binary32.Value
import Fieldbus.Relay
import Fieldbus.Proofs.Binary32.Exact
import Fieldbus.Proofs.Float16.Precision
import Fieldbus.Proofs.Ordering
import Fieldbus.Proofs.Scaled.Resending
import Fieldbus.Proofs.Float16.Resending
import Fieldbus.Proofs.Float16.Quantization
import Fieldbus.Proofs.Float16.ClosedForm
import Fieldbus.Proofs.Float16.Drift
import Fieldbus.Proofs.Relaying
import Fieldbus.Proofs.Saturation
import Fieldbus.Proofs.Payload
import Fieldbus.Proofs.Refusal
import Fieldbus.Proofs.Float16.Fields
import Fieldbus.Proofs.Float16.Symmetry
import Fieldbus.Proofs.Float16.Image
import Fieldbus.Proofs.Float16.Comparison
import Fieldbus.Proofs.Float16.Accuracy
import Fieldbus.Proofs.Decimal
import Fieldbus.Proofs.Float16.Printing
import Fieldbus.Proofs.Scaled.Truncation
import Fieldbus.Proofs.Text
import Fieldbus.Proofs.Words
import Fieldbus.Proofs.Assembly
