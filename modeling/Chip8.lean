import Chip8.Instruction.Encode
import Chip8.Machine.Call
import Chip8.Main
import Chip8.Proofs.CallStack
import Chip8.Proofs.Drawing
import Chip8.Proofs.Failure
import Chip8.Proofs.KeyWait
import Chip8.Proofs.Runs
import Chip8.Proofs.Safety
import Chip8.Proofs.Addresses
import Chip8.Proofs.Halting
import Chip8.Proofs.Redraw
import Chip8.Proofs.SideBySide
import Chip8.Proofs.Painting
import Chip8.Proofs.Pausing
import Chip8.Proofs.Sessions
import Chip8.Proofs.Holding
import Chip8.Proofs.Mirror
import Chip8.Proofs.StuckKeys
import Chip8.Proofs.WordFaults
import Chip8.Proofs.History
import Chip8.Proofs.Lockstep
import Chip8.Proofs.Randomness
import Chip8.Proofs.KeyDelivery
import Chip8.Proofs.BatchRuns
import Chip8.Proofs.OutputOnly
import Chip8.Proofs.Commuting
import Chip8.Proofs.Dialects
import Chip8.Proofs.CatchingUp
import Chip8.Proofs.DrawingOrder
import Chip8.Proofs.Arithmetic
import Chip8.Proofs.Waiting
import Chip8.Proofs.Footprint
import Chip8.Proofs.ControlFlow
import Chip8.Proofs.Releases
import Chip8.Proofs.UnreadMemory
import Chip8.Proofs.RegisterBlocks
import Chip8.Proofs.ByteStore
import Chip8.Proofs.Rounding
import Chip8.Proofs.Timers
import Chip8.Proofs.Renderings
