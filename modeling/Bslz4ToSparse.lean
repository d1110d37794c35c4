import Bslz4ToSparse.Lz4.Refine
import Bslz4ToSparse.Dot.PaddedExact
import Bslz4ToSparse.Dot.BsbCsr
import Bslz4ToSparse.Dot.FixedExact
import Bslz4ToSparse.Dot.CscSafe
import Bslz4ToSparse.Cuda.Csr1d
import Bslz4ToSparse.Matrix.FixedPoint
import Bslz4ToSparse.Steps.Decode
import Bslz4ToSparse.Steps.Mask
import Bslz4ToSparse.Steps.LowPlanesExact
import Bslz4ToSparse.Conveyor.Axis
import Bslz4ToSparse.Conveyor.Source
import Bslz4ToSparse.Conveyor.Clip
import Bslz4ToSparse.Conveyor.EngineSafe
import Bslz4ToSparse.Pipeline.Frame
import Bslz4ToSparse.Pipeline.Walks
import Bslz4ToSparse.Pipeline.LowPlanesCalls
import Bslz4ToSparse.Pipeline.Selection
import Bslz4ToSparse.TopPixels.Thresholds
import Bslz4ToSparse.Cuda.Unshuffle
import Bslz4ToSparse.Cuda.Ladders
import Bslz4ToSparse.Pipeline.Codec
import Bslz4ToSparse.Pipeline.Unravel
import Bslz4ToSparse.Conveyor.Rings
import Bslz4ToSparse.Conveyor.FrameRuns
import Bslz4ToSparse.Conveyor.Sidecar
import Bslz4ToSparse.Pipeline.Masked
import Bslz4ToSparse.Pipeline.Session
import Bslz4ToSparse.Pipeline.Isolation
import Bslz4ToSparse.Pipeline.Encoded
import Bslz4ToSparse.Pipeline.Sparsify
import Bslz4ToSparse.TopPixels.Multi
import Bslz4ToSparse.Pipeline.TwoDecoders
import Bslz4ToSparse.Pipeline.Powder
import Bslz4ToSparse.Pipeline.Forms
import Bslz4ToSparse.Cuda.Integrate
import Bslz4ToSparse.Conveyor.SparseFile
import Bslz4ToSparse.Conveyor.IterateSafe
import Bslz4ToSparse.Conveyor.Geometry
import Bslz4ToSparse.Conveyor.OpenFrames
import Bslz4ToSparse.Conveyor.DiffMapSafe
