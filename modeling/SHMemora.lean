import SHMemora.Verified.OrbitSearch
import SHMemora.Verified.ByteMemory
import SHMemora.Verified.StepRun
import SHMemora.Verified.ThreadPool
import SHMemora.Verified.ArenaAllocation
import SHMemora.Verified.MultiplicativeHash
import SHMemora.Verified.XorMultiplyHash
import SHMemora.Ports.ProtectionTable
import SHMemora.Ports.TableSearch
import SHMemora.Ports.TokenSchemes
import SHMemora.Ports.Confinement
import SHMemora.Ports.TokenMap
import SHMemora.Ports.GshmStore
import SHMemora.Ports.Acquisition
import SHMemora.Ports.ProbeInterference
import SHMemora.Ports.ChainWalk
import SHMemora.Ports.BucketChains
import SHMemora.Ports.GshmUprStore
import SHMemora.Ports.UprInsertion
import SHMemora.Ports.SoundCalls
import SHMemora.Ports.FreshTokens
import SHMemora.Ports.DeletionAuthority
import SHMemora.Ports.HonestClient
import SHMemora.Ports.KeyIsolation
import SHMemora.Ports.SharedAllocation
import SHMemora.Ports.LayoutOverlap
import SHMemora.Ports.LayoutCalls
import SHMemora.Ports.MappingBounds
import SHMemora.Ports.BatchAllocation
import SHMemora.Ports.BatchTokens
import SHMemora.Ports.SharedChains
import SHMemora.Ports.TableThreads
import SHMemora.Ports.SettledSlots
import SHMemora.Ports.ConcurrentAcquisition
import SHMemora.Ports.UprThreads
import SHMemora.Ports.Publication
import SHMemora.Ports.ConcurrentDeletion
import SHMemora.Ports.JoiningHosts
import SHMemora.Ports.ProbeRounds
import SHMemora.Ports.PlainAllocation
import SHMemora.Ports.MacTokens
import SHMemora.Ports.PutLayout
import SHMemora.Verified.LinkedChain
import SHMemora.Ports.ChainMap
import SHMemora.Ports.IssuedTokens
import SHMemora.Ports.RefusedWrites
import SHMemora.Ports.LayoutRuns
import SHMemora.Ports.TornInsertion
import SHMemora.Ports.CallReports
import SHMemora.Ports.WholeCalls
import SHMemora.Ports.AtomicCalls
import SHMemora.Ports.AtomicTable
import SHMemora.Ports.LinearizableRuns
import SHMemora.Ports.WaitFreeCalls
import SHMemora.Ports.Benchmark
import SHMemora.Ports.GlobalClient
import SHMemora.Ports.Noninterference
import SHMemora.Ports.GrantedAccesses
import SHMemora.Ports.SeparateHosts
