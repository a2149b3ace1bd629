import LockShield.Lib.PtrMap
import LockShield.Lib.Run
import LockShield.Lib.MachineInt
import LockShield.Lib.LittleEndian
import LockShield.Lib.Lts
import LockShield.Lib.Fifo
import LockShield.Lib.Chain
import LockShield.Lib.Lcg
import LockShield.Table.Shield
import LockShield.Table.RefModel
import LockShield.Table.Slots
import LockShield.Table.Array
import LockShield.Table.ArrayRuns
import LockShield.Table.NestedUnlock
import LockShield.Table.ClibArray
import LockShield.Table.Hash
import LockShield.Table.HashInv
import LockShield.Table.HashTable
import LockShield.Table.Hybrid
import LockShield.Table.Shape
import LockShield.Table.Frame
import LockShield.Table.Memory
import LockShield.Table.Pool
import LockShield.Table.Alternation
import LockShield.Table.Interchange
import LockShield.Table.Balanced
import LockShield.Table.Clib
import LockShield.Table.ClibHash
import LockShield.Table.FailedLock
import LockShield.Table.Invoke
import LockShield.Table.Throwing
import LockShield.Table.Depth
import LockShield.Lock.TasShield
import LockShield.Lock.Mcs
import LockShield.Lock.McsNested
import LockShield.Lock.Clh
import LockShield.Lock.ClhNested
import LockShield.Lock.Hem
import LockShield.Lock.K42
import LockShield.Lock.Cna
import LockShield.Lock.CnaSteps
import LockShield.Lock.CnaQueues
import LockShield.Lock.CnaFair
import LockShield.Lock.Ticket
import LockShield.Lock.Abql
import LockShield.Lock.AbqlNested
import LockShield.Lock.AbqlBounds
import LockShield.Lib.Dll
import LockShield.Lib.Mutex
import LockShield.Lib.Client
import LockShield.Lib.Barrier
import LockShield.Uthash.Jenkins
import LockShield.Uthash.Macros
import LockShield.Uthash.Chains
import LockShield.Uthash.Rep
import LockShield.Uthash.Runs
import LockShield.Uthash.Map
import LockShield.Table.Discipline
import LockShield.Table.Vendored
import LockShield.Lock.Tas
import LockShield.Lock.Mutexes
import LockShield.Lock.Progress
import LockShield.Lock.CnaProgress
import LockShield.Lock.Wake
import LockShield.System.Shielded
import LockShield.System.Returns
import LockShield.System.Variants
import LockShield.System.Misuse
import LockShield.System.Counter
import LockShield.System.Bench
import LockShield.System.Config
