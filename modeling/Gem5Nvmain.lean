import Gem5Nvmain.Sim.PageCheckpoint
import Gem5Nvmain.Cache.MshrOrder
import Gem5Nvmain.Cache.FilterRuns
import Gem5Nvmain.Cache.DipRuns
import Gem5Nvmain.Cache.LruOrder
import Gem5Nvmain.Cache.HapEpochs
import Gem5Nvmain.Cache.RripRuns
import Gem5Nvmain.Cache.PageInvalidate
import Gem5Nvmain.Cache.TimingRuns
import Gem5Nvmain.Cache.FaLruLookup
import Gem5Nvmain.Nvm.QueueIds
import Gem5Nvmain.Nvm.EventPriorities
import Gem5Nvmain.Nvm.LoopSplit
import Gem5Nvmain.Nvm.CellWritesSpec
import Gem5Nvmain.Nvm.PausingRuns
import Gem5Nvmain.Nvm.Registers
import Gem5Nvmain.Nvm.PowerStates
import Gem5Nvmain.Nvm.GlobalRuns
import Gem5Nvmain.Nvm.AddressTranslatorSpec
import Gem5Nvmain.Nvm.MigratorCheckpoint
import Gem5Nvmain.Nvm.FlipNWriteSpec
import Gem5Nvmain.Nvm.BitModel
import Gem5Nvmain.Nvm.CacheBankCommands
import Gem5Nvmain.Mem.FunctionalRuns
import Gem5Nvmain.Mem.PageListRuns
import Gem5Nvmain.Nvm.TraceRoundTrip
import Gem5Nvmain.Mem.PageMigrationRuns
import Gem5Nvmain.Mem.MigrationAddresses
import Gem5Nvmain.Mem.Bridge
import Gem5Nvmain.Mem.XBarRoutes
import Gem5Nvmain.Mem.XBarLayerRuns
import Gem5Nvmain.Mem.PacketQueueRuns
import Gem5Nvmain.Mem.SnoopFilterRuns
import Gem5Nvmain.Mem.Reservations
import Gem5Nvmain.Mem.DramWriteQueue
import Gem5Nvmain.Sim.EventQueueCheckpoint
import Gem5Nvmain.Base.TrieRuns
import Gem5Nvmain.Base.ChunkGenerator
import Gem5Nvmain.Base.CircleBufRuns
import Gem5Nvmain.Cpu.RenameGuard
import Gem5Nvmain.Cpu.BranchRuns
import Gem5Nvmain.Cpu.StoreSet
import Gem5Nvmain.Cpu.MemDepRuns
import Gem5Nvmain.Cpu.InstQueueRuns
import Gem5Nvmain.Ruby.DirectoryRuns
import Gem5Nvmain.Ruby.LineRuns
import Gem5Nvmain.Sim.PageSearch
import Gem5Nvmain.Mem.PageExchange
import Gem5Nvmain.Mem.TranslatedRead
import Gem5Nvmain.Nvm.WriteDrain
import Gem5Nvmain.Ruby.AddressBits
import Gem5Nvmain.Ruby.PseudoLru
import Gem5Nvmain.Ruby.CacheMemoryRuns
import Gem5Nvmain.Cache.BrpInvalidate
import Gem5Nvmain.Nvm.MissMapRuns
import Gem5Nvmain.Nvm.WakeRuns
import Gem5Nvmain.Cpu.LSQRuns
