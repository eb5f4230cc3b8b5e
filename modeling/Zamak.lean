import Zamak.PmmRegions
import Zamak.HeaviestCover
import Zamak.PmmCoverage
import Zamak.PmmTidy
import Zamak.OrderedSpans
import Zamak.PmmOrder
import Zamak.PmmResolve
import Zamak.PmmNormalize
import Zamak.PmmAllocator
import Zamak.PmmRuns
import Zamak.RadixLayout
import Zamak.RadixRuns
import Zamak.PageFormats
import Zamak.PageCodecs
import Zamak.PageTables
import Zamak.VmmApply
import Zamak.VmmCoverage
import Zamak.VmmPrecedence
import Zamak.Blake2bHash
import Zamak.Blake2bAgree
import Zamak.ConfigText
import Zamak.ConfigParse
import Zamak.EnrolledHash
import Zamak.BootFlow
import Zamak.Fat32Directory
import Zamak.Fat32Chain
import Zamak.LongNames
import Zamak.Fat32Lookup
import Zamak.Rfc7693
import Zamak.Blake2bRfc
import Zamak.MenuLoops
import Zamak.MenuAgree
import Zamak.MenuTree
import Zamak.ConfigEntries
import Zamak.Enclosures
import Zamak.EntryTree
import Zamak.ReferenceParser
import Zamak.ConfigDifferential
import Zamak.MultibootInfo
import Zamak.IsoDriver
import Zamak.IsoVolume
import Zamak.IsoLookup
import Zamak.Install
import Zamak.PmmMutators
import Zamak.ZeroPage
import Zamak.Fat32Paths
import Zamak.SmbiosConfig
import Zamak.SmbiosMerge
import Zamak.GzipMembers
import Zamak.Stage3
import Zamak.BiosPaging
import Zamak.PieLoading
import Zamak.Rfc8259
import Zamak.Rfc8259Parser
import Zamak.JsonPrinter
import Zamak.LinkedBlocks
import Zamak.PmmChecked
import Zamak.PmmComplete
import Zamak.Fat32Detours
import Zamak.Fat32Read
import Zamak.LongNameRuns
import Zamak.ShortNames
import Zamak.LegacyFat32
import Zamak.LegacyLoops
import Zamak.VolumeLabels
import Zamak.Ext2Driver
import Zamak.Ext2Loops
import Zamak.Ext2Listing
import Zamak.Segments
import Zamak.Ext2Read
import Zamak.IsoRead
import Zamak.ReadLengths
import Zamak.MacroSubstitution
import Zamak.OptionSyntax
import Zamak.MenuKeys
import Zamak.MenuChecked
import Zamak.MenuEditor
import Zamak.MenuExpand
import Zamak.EditorGate
import Zamak.MultibootHeader
import Zamak.DisjointUpdates
import Zamak.PeRelocation
import Zamak.SegmentLoading
import Zamak.BiosElf
import Zamak.BiosLoading
import Zamak.RequestScan
import Zamak.MaskRounding
import Zamak.BzImageHeader
import Zamak.GzipHeader
import Zamak.KaslrBase
import Zamak.ZeroPageFrame
import Zamak.HeapBlocks
import Zamak.RetryLoops
import Zamak.BiosHeap
import Zamak.DecompressorHeap
import Zamak.ThemeColors
import Zamak.ThemeFile
import Zamak.UriParse
import Zamak.RowMajor
import Zamak.Wallpaper
import Zamak.WallpaperDraw
import Zamak.HeaderSearch
import Zamak.SatpEncoding
import Zamak.Gregorian
import Zamak.Iso8601
import Zamak.IndentedForests
import Zamak.YamlPrinter
import Zamak.UefiPaths
import Zamak.ThemeTokens
import Zamak.KernelView
import Zamak.SpanMeasure
import Zamak.PmmAccounting
import Zamak.LeakedHeap
import Zamak.BootRequests
import Zamak.BootAnswers
import Zamak.IsoDisc
import Zamak.Ext2Disc
import Zamak.Fat32Disc
import Zamak.PlacedBlocks
import Zamak.LinuxLoading
import Zamak.Stamps
import Zamak.ScreenMemory
import Zamak.ScreenDrawing
import Zamak.ByteMemory
import Zamak.BiosServices
import Zamak.Stage1
import Zamak.RealMode
import Zamak.BundleFilling
import Zamak.BootBundle
import Zamak.CLayout
import Zamak.ReplyLayout
import Zamak.BiosReplies
import Zamak.PathB
