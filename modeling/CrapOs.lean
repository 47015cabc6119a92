import CrapOs.ProcessorControl.InterruptStubs
import CrapOs.MemoryManager.Reclamation
import CrapOs.MemoryManager.Heap.Search
import CrapOs.Loader.Coverage
import CrapOs.TaskScheduler.Contexts
import CrapOs.TaskScheduler.Generations
import CrapOs.TaskScheduler.KernelEntry
import CrapOs.TaskScheduler.FailedCalls
import CrapOs.TaskScheduler.SleeperRuns
import CrapOs.TaskScheduler.Deadlines
import CrapOs.TaskScheduler.LockNesting
import CrapOs.TaskScheduler.RoundRobin
import CrapOs.HardwareManager.Keyboard
import CrapOs.HardwareManager.MadtReads
import CrapOs.SpinLock
import CrapOs.IrqGuards
import CrapOs.ProcessManager.UserEntry
import CrapOs.ProcessManager.SpawnWindow
import CrapOs.ProcessManager.FailedCreation
import CrapOs.Crypto.Gf128
import CrapOs.Crypto.GcmCounter
import CrapOs.Helpers.Hex
import CrapOs.Crypto.Argon2Passes
import CrapOs.Crypto.Argon2References
import CrapOs.Crypto.PhcGrammar
import CrapOs.Crypto.Rng
import CrapOs.Crypto.Digests
import CrapOs.Crypto.Argon2Mixing
import CrapOs.Crypto.Xoshiro
