import CtrlxtKernel.KernelTypes
import CtrlxtKernel.MachineInt
import CtrlxtKernel.ObjectHeap
import CtrlxtKernel.HeapMoves
import CtrlxtKernel.LinkedRing
import CtrlxtKernel.RefLedger
import CtrlxtKernel.StepMachine
import CtrlxtKernel.StepRefinement
import CtrlxtKernel.LimitedStore
import CtrlxtKernel.FallibleCalls
import CtrlxtKernel.LockDiscipline
import CtrlxtKernel.LockReduction
import CtrlxtKernel.NestedLocks
import CtrlxtKernel.PythonRules
import CtrlxtKernel.BumpArena
import CtrlxtKernel.BasisRegisters
import CtrlxtKernel.QubitAmplitudes
import CtrlxtKernel.QubitSupports
import CtrlxtKernel.QubitWeights
import CtrlxtKernel.QuantumMemory
import CtrlxtKernel.QuantumMemoryBlocks
import CtrlxtKernel.QuantumMemoryReferences
import CtrlxtKernel.QuantumMemoryAccounting
import CtrlxtKernel.QuantumMemorySerial
import CtrlxtKernel.QuantumMemoryReloads
import CtrlxtKernel.QuantumMemoryInterleaving
import CtrlxtKernel.QuantumMemoryLifetime
import CtrlxtKernel.QuantumMemoryLimit
import CtrlxtKernel.QuantumMemoryHalves
import CtrlxtKernel.QuantumMemorySections
import CtrlxtKernel.QuantumMemoryReports
import CtrlxtKernel.QuantumMemoryStore
import CtrlxtKernel.QuantumMemoryLinear
import CtrlxtKernel.MemoryManagement
import CtrlxtKernel.MemoryManagementRuns
import CtrlxtKernel.MemoryManagementExit
import CtrlxtKernel.MemoryManagementBadFrees
import CtrlxtKernel.RegionRecords
import CtrlxtKernel.QuantumLayer
import CtrlxtKernel.QuantumDevice
import CtrlxtKernel.QuantumDeviceLoading
import CtrlxtKernel.QuantumDeviceRuns
import CtrlxtKernel.QuantumDeviceOpens
import CtrlxtKernel.QuantumDeviceBusy
import CtrlxtKernel.QuantumDeviceThreads
import CtrlxtKernel.QuantumDeviceMemory
import CtrlxtKernel.QuantumDeviceCompat
import CtrlxtKernel.QuantumRegistry
import CtrlxtKernel.QuantumRegistryRuns
import CtrlxtKernel.ErrorCorrection
import CtrlxtKernel.RepetitionCode
import CtrlxtKernel.ErrorCorrectionRounds
import CtrlxtKernel.ErrorCorrectionAmplitudes
import CtrlxtKernel.ErrorCorrectionCounters
import CtrlxtKernel.ErrorCorrectionReports
import CtrlxtKernel.ErrorCorrectionHistory
import CtrlxtKernel.ErrorCorrectionLoading
import CtrlxtKernel.QuantumClassical
import CtrlxtKernel.QuantumClassicalRuns
import CtrlxtKernel.QuantumClassicalFailures
import CtrlxtKernel.QuantumGateRange
import CtrlxtKernel.QuantumClassicalData
import CtrlxtKernel.QuantumClassicalHistory
import CtrlxtKernel.QuantumClassicalReadings
import CtrlxtKernel.KernelLocks
import CtrlxtKernel.KernelLocksRuns
import CtrlxtKernel.KernelThreads
import CtrlxtKernel.KernelThreadsRuns
import CtrlxtKernel.QuantumClassicalCalls
import CtrlxtKernel.ConversionThreads
import CtrlxtKernel.Context
import CtrlxtKernel.Security
import CtrlxtKernel.Performance
import CtrlxtKernel.ContextRuns
import CtrlxtKernel.SecurityPolicy
import CtrlxtKernel.PerformanceMetrics
import CtrlxtKernel.PerformanceSampling
import CtrlxtKernel.PerformanceThreads
import CtrlxtKernel.UhalDriver
import CtrlxtKernel.UhalDriverLoading
import CtrlxtKernel.FileSystem
import CtrlxtKernel.FileBags
import CtrlxtKernel.NetworkDevice
import CtrlxtKernel.UhalBlueprint
import CtrlxtKernel.UhalBoot
