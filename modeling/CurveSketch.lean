import CurveSketch.Marking
import CurveSketch.Settings.Json
import CurveSketch.Proofs.Naming
import CurveSketch.Proofs.SharedNaming
import CurveSketch.Proofs.LegibleFeature
import CurveSketch.Proofs.RoundTrip
import CurveSketch.Proofs.Binary64
import CurveSketch.Proofs.PathWalk
import CurveSketch.Proofs.Quadrant
import CurveSketch.Proofs.SelfMatch
import CurveSketch.Proofs.Extent
import CurveSketch.Proofs.OwnExample
import CurveSketch.Proofs.DrawingOrder
import CurveSketch.Proofs.DrawingDirection
import CurveSketch.Proofs.BetweenCrossings
import CurveSketch.Proofs.CornerGraze
import CurveSketch.Proofs.LineByLine
import CurveSketch.Proofs.VertexSector
import CurveSketch.Proofs.WireRoundTrip
import CurveSketch.Proofs.SymmetricAnywhere
import CurveSketch.Proofs.PathCover
import CurveSketch.Proofs.LeftOut
import CurveSketch.Proofs.PointSector
import CurveSketch.Proofs.LineRelation
import CurveSketch.Proofs.HalfPlaneClip
import CurveSketch.Proofs.CrossingList
import CurveSketch.Proofs.CutPartition
import CurveSketch.Proofs.RegionClip
import CurveSketch.Proofs.RoundedCut
import CurveSketch.Proofs.PinnedName
import CurveSketch.Proofs.CrossingExchange
import CurveSketch.Proofs.HeightProfile
import CurveSketch.Proofs.CanonicalOrder
import CurveSketch.Proofs.NameOrder
import CurveSketch.Proofs.Wedge
import CurveSketch.Proofs.FlatMerge
import CurveSketch.Proofs.CommonPoint
