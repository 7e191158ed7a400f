import Prosperity.Kern.EventFlagRuns
import Prosperity.Kern.UrwlockRuns
import Prosperity.Kern.UmutexRuns
import Prosperity.Kern.UcondRuns
import Prosperity.Kern.SemaphoreRuns
import Prosperity.Kern.ObjectTable
import Prosperity.Kern.Vfs
import Prosperity.Kern.SaveStorage
import Prosperity.Gpu.RenderQueueRuns
import Prosperity.Gcn.OwnLane
import Prosperity.Gcn.Uniform
import Prosperity.Gpu.CommandQueues
import Prosperity.Formats.RarSessionRuns
import Prosperity.Gpu.BufferCacheRuns
import Prosperity.Formats.ZipArchiveRuns
import Prosperity.Gcn.StagedImageAddresses
import Prosperity.Gpu.GraphicsQueue
import Prosperity.Rdna.ProgramCache
import Prosperity.Kern.DirectMemoryRuns
import Prosperity.Gpu.MemoryOrderRuns
import Prosperity.Gcn.TrackTexturesSound
import Prosperity.Rdna.ScalarSliceSound
import Prosperity.Rdna.ReplayMemo
import Prosperity.Rdna.MovrelIndices
import Prosperity.Rdna.CbufPlanSound
import Prosperity.Rdna.ComputeResources
import Prosperity.Rdna.OperandModifiersSound
import Prosperity.Rdna.ControlLoweringSound
import Prosperity.Gcn.DecodeTiling
import Prosperity.Gpu.MemorySpan
import Prosperity.Gpu.DmemAliases
import Prosperity.Gpu.GuestMemoryRanges
import Prosperity.Kern.VmRanges
import Prosperity.Kern.SimpleWaitRuns
import Prosperity.Gpu.WriteTrackerQueue
import Prosperity.Kern.SaveAtomicity
import Prosperity.Formats.ArchiveIndexRoundTrip
import Prosperity.Formats.ArchiveCacheRuns
import Prosperity.Cpu.MmioSound
import Prosperity.Formats.FselfSound
import Prosperity.Kern.ModuleExportsLookup
import Prosperity.Formats.Ufs2Blocks
import Prosperity.Formats.PfsTreeWalk
import Prosperity.Formats.PupExtract
import Prosperity.Formats.ArchiveTreeWalk
import Prosperity.Formats.PkgSourcesSlice
import Prosperity.Gpu.SmallFloats
import Prosperity.Gcn.DescriptorVersionsBounds
import Prosperity.Gcn.LdsBarriers
import Prosperity.Rdna.LdsBarriers
import Prosperity.Rdna.BlockDominators
import Prosperity.Rdna.DecodeTiling
import Prosperity.Rdna.WholeWaveMasks
import Prosperity.Gpu.GuestDirect
import Prosperity.Gpu.ReadabilityCache
import Prosperity.Gpu.PacketReadsBounds
import Prosperity.Gcn.WideCompares
import Prosperity.Gpu.DirtyIndex
import Prosperity.Gcn.SpirvModule
import Prosperity.Kern.ReleasedRanges
import Prosperity.Gpu.ArmedBytes
import Prosperity.Gpu.GuestWindows
