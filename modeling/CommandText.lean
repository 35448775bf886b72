import CommandText.Lookup.Session
import CommandText.Main
import CommandText.Peg.Dynamic
import CommandText.Proofs.Bounds
import CommandText.Proofs.Diagnosis
import CommandText.Proofs.Ending
import CommandText.Proofs.Locality
import CommandText.Proofs.RoundTrip
import CommandText.Proofs.Scanner
import CommandText.Proofs.Stopping
import CommandText.Proofs.Template
import CommandText.Proofs.AllOrNothing
import CommandText.Proofs.Definitions
import CommandText.Proofs.Resolution
import CommandText.Proofs.History
import CommandText.Proofs.Sharing
import CommandText.Proofs.Joining
import CommandText.Proofs.Pairing
import CommandText.Proofs.Repair
import CommandText.Proofs.Splitting
import CommandText.Proofs.Surrogates
import CommandText.Proofs.Accounting
import CommandText.Proofs.Canonical
import CommandText.Proofs.Geometry
import CommandText.Proofs.Verdict
import CommandText.Proofs.Interchange
import CommandText.Proofs.Shadowing
import CommandText.Proofs.Reordering
import CommandText.Proofs.Snapshots
import CommandText.Proofs.Decoration
import CommandText.Proofs.Idempotence
import CommandText.Proofs.Repetition
import CommandText.Proofs.Progress
import CommandText.Proofs.Lossless
