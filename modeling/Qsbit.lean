import Qsbit.Tcu.Manifest
import Qsbit.Tcu.Space
import Qsbit.Tcu.Timing
import Qsbit.Sync.Link
import Qsbit.Core.Handshake
import Qsbit.Backend.Batch
import Qsbit.Device.Fault
import Qsbit.Device.Stream
import Qsbit.Decoder.Quiet
import Qsbit.Decoder.Timing
import Qsbit.Decoder.Reset
import Qsbit.Device.Atomic
import Qsbit.Device.Pairing
import Qsbit.TimingControl.Codeword
import Qsbit.Tcu.Flags
import Qsbit.Simulator
import Qsbit.Isa.Semantics
import Qsbit.Image.Loader
import Qsbit.Image.Access
import Qsbit.Profile.Fingerprint
import Qsbit.ConfigJson.RoundTrip
import Qsbit.MemoryModel.Decoders
import Qsbit.Cpu
import Qsbit.Mailbox.Arrival
import Qsbit.Tcu.Pause
import Qsbit.TraceModel.Buffers
import Qsbit.TraceModel.Records
import Qsbit.TraceModel.Follows
import Qsbit.TraceModel.Edges
import Qsbit.Records
import Qsbit.TraceModel.Played
import Qsbit.TraceModel.Methods
import Qsbit.TraceModel.Run
import Qsbit.Replay
import Qsbit.Replay.Rounds
import Qsbit.Lib.Writes
import Qsbit.Replay.Identities
import Qsbit.Replay.Stream
import Qsbit.Replay.Extension
import Qsbit.Device.BackendState
import Qsbit.Replay.Recording
import Qsbit.Replay.Run
import Qsbit.Cpu.Bundle
import Qsbit.Cpu.Run
import Qsbit.Cpu.Lanes
import Qsbit.Cpu.Codewords
import Qsbit.Cpu.Equivalence
import Qsbit.Cpu.Program
import Qsbit.Cpu.Exceptions
import Qsbit.Cpu.Refinement
import Qsbit.Simulator.Logged
