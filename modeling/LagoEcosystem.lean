import LagoEcosystem.Library.Clocked
import LagoEcosystem.Library.Framing
import LagoEcosystem.Library.BitFields
import LagoEcosystem.Library.FixedPoint
import LagoEcosystem.Library.FloatingPoint
import LagoEcosystem.Library.Calendar
import LagoEcosystem.Library.CLib
import LagoEcosystem.Library.CSearch
import LagoEcosystem.Library.CBuffer
import LagoEcosystem.Library.RingMemory
import LagoEcosystem.Library.ByteMemory
import LagoEcosystem.Library.HalfBuffers
import LagoEcosystem.Library.SharedWord
import LagoEcosystem.Library.GrayCode
import LagoEcosystem.Library.Feedback
import LagoEcosystem.Library.LaggedCounters
import LagoEcosystem.Library.Saturating
import LagoEcosystem.Library.ShiftRegister
import LagoEcosystem.Library.SequenceGaps
import LagoEcosystem.Library.Consume
import LagoEcosystem.Library.Pulses
import LagoEcosystem.Library.Hysteresis
import LagoEcosystem.Library.DelayedLoop
import LagoEcosystem.Library.Acquisition
import LagoEcosystem.Cores.Functions
import LagoEcosystem.Cores.DnaReader
import LagoEcosystem.Trigger.Core
import LagoEcosystem.Trigger.Stream
import LagoEcosystem.Trigger.Frames
import LagoEcosystem.Trigger.Seconds
import LagoEcosystem.Trigger.FrameStatus
import LagoEcosystem.Trigger.Decision
import LagoEcosystem.Trigger.Scalers
import LagoEcosystem.Trigger.Charge
import LagoEcosystem.Trigger.Window
import LagoEcosystem.RamWriter.Core
import LagoEcosystem.RamWriter.Data
import LagoEcosystem.RamWriter.Address
import LagoEcosystem.RamWriter.Memory
import LagoEcosystem.RamWriter.Streaming
import LagoEcosystem.AxisFifo.Core
import LagoEcosystem.AxisFifo.Controller
import LagoEcosystem.AxisFifo.Safety
import LagoEcosystem.AxisFifo.Pointers
import LagoEcosystem.AxisFifo.Stream
import LagoEcosystem.CfgRegister.Core
import LagoEcosystem.CfgRegister.Store
import LagoEcosystem.CfgRegister.Answers
import LagoEcosystem.Cores.TimeTrigger
import LagoEcosystem.Histogram.Core
import LagoEcosystem.Histogram.Bins
import LagoEcosystem.Histogram.Account
import LagoEcosystem.Histogram.Snapshot
import LagoEcosystem.Averager.Core
import LagoEcosystem.Averager.Sweeps
import LagoEcosystem.Averager.Acquisition
import LagoEcosystem.Averager.Ntoone
import LagoEcosystem.Averager.Results
import LagoEcosystem.Averager.BramReader
import LagoEcosystem.Avgr.Core
import LagoEcosystem.Avgr.Scope
import LagoEcosystem.Avgr.Termination
import LagoEcosystem.Reader.Decode
import LagoEcosystem.Reader.Language
import LagoEcosystem.Reader.Misread
import LagoEcosystem.Reader.Clock
import LagoEcosystem.Reader.Loop
import LagoEcosystem.Reader.Session
import LagoEcosystem.Reader.LostPulses
import LagoEcosystem.Reader.Window
import LagoEcosystem.Reader.Mapping
import LagoEcosystem.Reader.ExactlyOnce
import LagoEcosystem.Reader.FirstDrain
import LagoEcosystem.Acqua.Registers
import LagoEcosystem.Acqua.Commands
import LagoEcosystem.Acqua.Arguments
import LagoEcosystem.Acqua.Main
import LagoEcosystem.Acqua.Voltage
import LagoEcosystem.Acqua.HistogramCommand
import LagoEcosystem.Acqua.HistogramRun
import LagoEcosystem.Acqua.HistogramPrint
import LagoEcosystem.Acqua.ResetRegister
import LagoEcosystem.Pps.Core
import LagoEcosystem.Pps.Pulses
import LagoEcosystem.Gps.Uart
import LagoEcosystem.Gps.Nmea
import LagoEcosystem.Gps.Fields
import LagoEcosystem.Gps.Checksum
import LagoEcosystem.Gps.LineSafety
import LagoEcosystem.Gps.Location
import LagoEcosystem.Gps.Degrees
import LagoEcosystem.Gps.Fix
import LagoEcosystem.Gps.Position
import LagoEcosystem.Gps.Time
import LagoEcosystem.Packetizer.Core
import LagoEcosystem.Streams.TlastGen
import LagoEcosystem.Streams.Decimator
import LagoEcosystem.Streams.Interpolator
import LagoEcosystem.Streams.Variable
import LagoEcosystem.Streams.BramWriter
import LagoEcosystem.Streams.Counter
import LagoEcosystem.Streams.BramReader
import LagoEcosystem.Streams.Lfsr
import LagoEcosystem.Streams.WidthConverter
import LagoEcosystem.AxiLite.StsRegister
import LagoEcosystem.AxiLite.BramReader
import LagoEcosystem.AxiLite.AxisReader
import LagoEcosystem.AxiLite.AxisWriter
import LagoEcosystem.DcRemoval.Core
import LagoEcosystem.DcRemoval.Settling
import LagoEcosystem.Outputs.Ramp
import LagoEcosystem.Outputs.Pwm
import LagoEcosystem.Outputs.HighVoltage
import LagoEcosystem.ZeroCrossing.Detector
import LagoEcosystem.Reader.DataPath
import LagoEcosystem.Reader.Pipeline
import LagoEcosystem.Recorder.Server
import LagoEcosystem.Recorder.File
import LagoEcosystem.Recorder.Oscilloscope
import LagoEcosystem.Recorder.Printout
import LagoEcosystem.Recorder.Player
