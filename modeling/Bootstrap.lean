import Bootstrap.ActivationFiles
import Bootstrap.ActivationSteps
import Bootstrap.AllOrNothing
import Bootstrap.ApkPath
import Bootstrap.ByteLayout
import Bootstrap.ByteMemory
import Bootstrap.CInt
import Bootstrap.ConcurrentMapping
import Bootstrap.CopyFile
import Bootstrap.DynamicSection
import Bootstrap.ElfImage
import Bootstrap.Emission
import Bootstrap.EmissionPlan
import Bootstrap.FileMapping
import Bootstrap.FileStore
import Bootstrap.HandleCache
import Bootstrap.HandleMapping
import Bootstrap.HookCore
import Bootstrap.HookRefresh
import Bootstrap.HookedCursors
import Bootstrap.InitHook
import Bootstrap.InitOutcome
import Bootstrap.Interleaving
import Bootstrap.InterruptedInstall
import Bootstrap.IntrusiveList
import Bootstrap.LastActivation
import Bootstrap.LibraryHooks
import Bootstrap.LineReading
import Bootstrap.ListingOrder
import Bootstrap.LoadedLibrary
import Bootstrap.Locks
import Bootstrap.MapCalls
import Bootstrap.MapInvariant
import Bootstrap.MapLinks
import Bootstrap.MapRefinement
import Bootstrap.MapsFile
import Bootstrap.MergeLaw
import Bootstrap.MergePlan
import Bootstrap.MyMap
import Bootstrap.NodeOwnership
import Bootstrap.OpenFiles
import Bootstrap.PackedRelocs
import Bootstrap.ParseApk
import Bootstrap.ParseSafety
import Bootstrap.PartitionTable
import Bootstrap.PlainFile
import Bootstrap.PositionHooks
import Bootstrap.ReadContract
import Bootstrap.RecordLookup
import Bootstrap.RefreshThread
import Bootstrap.RefreshedLibraries
import Bootstrap.Reparse
import Bootstrap.SerialUtils
import Bootstrap.ServableTable
import Bootstrap.ServedPatch
import Bootstrap.ShadowCursor
import Bootstrap.ShadowStream
import Bootstrap.ShadowZipInit
import Bootstrap.ShortReads
import Bootstrap.SignedLeb
import Bootstrap.SlotHook
import Bootstrap.StagedLibraries
import Bootstrap.StartUp
import Bootstrap.StoredAlignment
import Bootstrap.StoredArchive
import Bootstrap.SymbolLookup
import Bootstrap.TableInvariant
import Bootstrap.TextScan
import Bootstrap.Tiling
import Bootstrap.Truncation
import Bootstrap.UseDataDir
import Bootstrap.UserDb
import Bootstrap.VirtualApk
import Bootstrap.VirtualFile
import Bootstrap.WholeApk
import Bootstrap.WrittenArchive
import Bootstrap.ZipEntry
import Bootstrap.ZipFile
