import ValueHeap.Engine
import ValueHeap.Proofs.Copy.Corresponds
import ValueHeap.Proofs.Copy.Separate
import ValueHeap.Proofs.Counts
import ValueHeap.Proofs.Equivalence
import ValueHeap.Proofs.Exchange
import ValueHeap.Proofs.Lookup
import ValueHeap.Proofs.Operators
import ValueHeap.Proofs.Order
import ValueHeap.Proofs.Undone
import ValueHeap.Proofs.Object.Apart
import ValueHeap.Proofs.Object.Spells
import ValueHeap.Proofs.Compare.Level
import ValueHeap.Proofs.Object.Keys
import ValueHeap.Proofs.Object.Finding
import ValueHeap.Proofs.Object.Building
import ValueHeap.Proofs.Object.Rebuilding
import ValueHeap.Proofs.Object.Memory
import ValueHeap.Proofs.RoundTrip
import ValueHeap.Proofs.Modes
import ValueHeap.Proofs.Refusals
import ValueHeap.Proofs.Contents
import ValueHeap.Proofs.Fingerprints
import ValueHeap.Proofs.Release
import ValueHeap.Proofs.Fallback
import ValueHeap.Proofs.Copy.Alike
import ValueHeap.Proofs.DepthLimit
import ValueHeap.Proofs.FreeSlots
import ValueHeap.Proofs.Circles
import ValueHeap.Proofs.Charges
import ValueHeap.Proofs.Depth
import ValueHeap.Proofs.Observers
import ValueHeap.Proofs.Offences
import ValueHeap.Proofs.Fingerprint.Context
import ValueHeap.Proofs.Ranges
import ValueHeap.Proofs.Numbers
import ValueHeap.Proofs.DictItems
import ValueHeap.Proofs.Snapshots
import ValueHeap.Proofs.Spelling
import ValueHeap.Proofs.Quoting
import ValueHeap.Proofs.Literals
import ValueHeap.Proofs.Copy.Reports
import ValueHeap.Proofs.Fingerprint.Rolling
import ValueHeap.Proofs.KeyHash.Folding
import ValueHeap.Proofs.DigitLimit
