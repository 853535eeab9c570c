import BeatNet.Library.Effects
import BeatNet.Library.Blocks
import BeatNet.Numpy
import BeatNet.Population
import BeatNet.Gates
import BeatNet.Chunks
import BeatNet.Realtime
import BeatNet.Tracks
import BeatNet.Threads
import BeatNet.InverseCdf
import BeatNet.Systematic
import BeatNet.Onnx.Grid
import BeatNet.Onnx.Sessions
import BeatNet.Onnx.Continuity
import BeatNet.Onnx.Bins
import BeatNet.Onnx.BuildFilters
import BeatNet.Onnx.Origins
import BeatNet.Onnx.Resets
import BeatNet.Onnx.Bands
import BeatNet.Meters
import BeatNet.Onnx.Setup
import BeatNet.BeatRegions
import BeatNet.Alternatives
import BeatNet.Features
import BeatNet.Motion
import BeatNet.Weights
import BeatNet.Streaming
import BeatNet.Framewise
import BeatNet.Network
import BeatNet.Plots
import BeatNet.Reports
import BeatNet.Onnx.Ranges
import BeatNet.Onnx.Inference
import BeatNet.Onnx.Objects
import BeatNet.Unbiased
