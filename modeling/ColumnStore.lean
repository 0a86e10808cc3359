import ColumnStore.Snapshot.KeyMatch
import ColumnStore.Schema.Parser
import ColumnStore.Schema.Printer
import ColumnStore.Proofs.Stability
import ColumnStore.Proofs.RowSession
import ColumnStore.Proofs.ReadSafety
import ColumnStore.Proofs.KeyMatch
import ColumnStore.Proofs.RowAccess
import ColumnStore.Proofs.Addressing
import ColumnStore.Proofs.ReadAcceptance
import ColumnStore.Proofs.HolderReuse
import ColumnStore.Proofs.RowWriter
import ColumnStore.Proofs.RowFraming
import ColumnStore.Proofs.ForeignRows
import ColumnStore.Proofs.RowIndexMap
import ColumnStore.Proofs.DeltaAcceptance
import ColumnStore.Proofs.RowWriting
import ColumnStore.Proofs.RowGrammar
import ColumnStore.Proofs.BlockCopy
import ColumnStore.Proofs.HolderOutcome
import ColumnStore.Proofs.RowCanonical
import ColumnStore.Proofs.DeltaCommit
import ColumnStore.Proofs.Fingerprint
import ColumnStore.Proofs.SchemaValidity
import ColumnStore.Proofs.Text
import ColumnStore.Proofs.Visibility
import ColumnStore.Proofs.SchemaText
import ColumnStore.Proofs.BufferCalls
