import RiscvOs.BitmapCount
import RiscvOs.DetectMemory
import RiscvOs.SingleRegion
import RiscvOs.BitmapReads
import RiscvOs.BitmapRelease
import RiscvOs.Blocks
import RiscvOs.Numbering
import RiscvOs.Halves
import RiscvOs.RegCells
import RiscvOs.Timer
import RiscvOs.Crt0
import RiscvOs.CStrings
import RiscvOs.ByteScans
import RiscvOs.LittleEndian
import RiscvOs.Strlen
import RiscvOs.ContextSwitch
import RiscvOs.Bitmap64
import RiscvOs.StringLists
import RiscvOs.PrintOutput
import RiscvOs.NumberText
import RiscvOs.Numerals
import RiscvOs.FormatMachine
import RiscvOs.NumberReads
import RiscvOs.FormatGrammar
import RiscvOs.FormatMeaning
import RiscvOs.IntegerConversions
import RiscvOs.Snprintf
import RiscvOs.FdtHeader
import RiscvOs.FdtTags
import RiscvOs.Nesting
import RiscvOs.FdtNodes
import RiscvOs.FdtParents
import RiscvOs.FdtProperties
import RiscvOs.FdtCheck
import RiscvOs.FdtSearch
import RiscvOs.MemoryNodes
import RiscvOs.Boot
