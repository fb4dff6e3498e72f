import RockOs.MallocSystem
import RockOs.MallocShape
import RockOs.MallocAllocate
import RockOs.MallocRelease
import RockOs.MallocSafety
import RockOs.MallocMisuse
import RockOs.PageTables
import RockOs.RadixTable
import RockOs.PageDescriptors
import RockOs.PageWalk
import RockOs.PageTableSteps
import RockOs.PageTableSetup
import RockOs.PageTableChanges
import RockOs.BlockSplitting
import RockOs.PageTablePair
import RockOs.PageTableAttributes
import RockOs.CacheOptions
import RockOs.PageTableBudget
import RockOs.MemoryAttributes
import RockOs.PageTableReserve
import RockOs.RegionBlocks
import RockOs.RegionLoops
import RockOs.TranslationControl
import RockOs.RingQueue
import RockOs.ItsCommands
import RockOs.Interrupts
import RockOs.InterruptDispatch
import RockOs.InterruptFrame
import RockOs.DistributorReset
import RockOs.IrqchipState
import RockOs.Redistributors
import RockOs.Relocation
import RockOs.MemoryCopy
import RockOs.MemoryScan
import RockOs.BootLayout
import RockOs.BoundedText
import RockOs.Ctype
import RockOs.Vsprintf
import RockOs.VsprintfBounds
import RockOs.PrintedNumbers
import RockOs.ParsedNumbers
import RockOs.NumberLayout
import RockOs.Console
import RockOs.DecimalConversion
import RockOs.Printk
import RockOs.MemoryCompare
import RockOs.CliReadline
import RockOs.LineHistory
import RockOs.LineScreen
import RockOs.LineLimit
import RockOs.ArgumentLimit
import RockOs.CommandLoop
import RockOs.CommandLists
import RockOs.Quoting
import RockOs.HelpListing
import RockOs.UnicodeForms
import RockOs.Charset
import RockOs.Utf8Codec
import RockOs.Utf16Codec
import RockOs.CharsetLengths
import RockOs.BulkConversion
import RockOs.BinaryPolynomials
import RockOs.RandomNumbers
import RockOs.SizePrinting
import RockOs.Timers
import RockOs.MemoryDisplay
import RockOs.Aarch64
import RockOs.Assembly
import RockOs.ExceptionLevels
import RockOs.ExceptionVectors
import RockOs.CacheLevels
import RockOs.CacheRanges
import RockOs.TranslationUnit
import RockOs.TableSwitch
import RockOs.RelocationCode
import RockOs.TableStores
import RockOs.LiveTables
