import Pequin.Proof.ViewChange
import Pequin.Proof.GlobalSerializability
import Pequin.Proof.Transferability
import Pequin.Proof.Conflicts
import Pequin.Proof.Verifier
import Pequin.Proof.Digest
import Pequin.Proof.ClientOutcome
import Pequin.Proof.ClientCertificates
import Pequin.Proof.TableVersions
import Pequin.Proof.OwnWrites
import Pequin.Proof.ScanTrace
import Pequin.Proof.QueryOwnership
import Pequin.Proof.SnapshotMaterialization
import Pequin.Proof.Predicates
import Pequin.Proof.ReplyCertificates
import Pequin.Proof.FallbackDecisions
import Pequin.Proof.Elections
import Pequin.Proof.MoveViews
import Pequin.Proof.P1Votes
import Pequin.Proof.DependencyProgress
import Pequin.Proof.PendingQuery
import Pequin.Proof.QueryWait
import Pequin.Proof.DecisiveVotes
import Pequin.Proof.QueryDependencies
import Pequin.Proof.QueryFailures
import Pequin.Proof.PreparedIndexes
import Pequin.Proof.TableOwners
import Pequin.Proof.Results
import Pequin.Proof.VersionStore
import Pequin.Proof.TableWriters
import Pequin.Proof.TableEncoder
