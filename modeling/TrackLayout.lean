import TrackLayout.Document.Settings
import TrackLayout.Document.Snapshot
import TrackLayout.Proofs.BoxTree.Arena
import TrackLayout.Proofs.BoxTree.Cuts
import TrackLayout.Proofs.Conversion
import TrackLayout.Proofs.Document.Texts
import TrackLayout.Proofs.Geometry.Angle
import TrackLayout.Proofs.Geometry.CommonPoint
import TrackLayout.Proofs.Geometry.Lattice
import TrackLayout.Proofs.Heights.Elevations
import TrackLayout.Proofs.Heights.Inclines
import TrackLayout.Proofs.Heights.Interruption
import TrackLayout.Proofs.Heights.Pooling
import TrackLayout.Proofs.Heights.Soundness
import TrackLayout.Proofs.Import.Deduplication
import TrackLayout.Proofs.Import.Interleaving
import TrackLayout.Proofs.Junction.Alignment
import TrackLayout.Proofs.Network.Blocks
import TrackLayout.Proofs.Network.Closure
import TrackLayout.Proofs.Network.Crossing
import TrackLayout.Proofs.Network.Nearest
import TrackLayout.Proofs.Network.Reversal
import TrackLayout.Proofs.Network.Siblings
import TrackLayout.Proofs.Network.Straightness
import TrackLayout.Proofs.Snapshot.Csv
import TrackLayout.Proofs.Snapshot.Text
