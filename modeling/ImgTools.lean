import ImgTools.Outcome
import ImgTools.ChunkReader
import ImgTools.Fallible
import ImgTools.Slice
import ImgTools.Word
import ImgTools.LittleEndian
import ImgTools.Utf8
import ImgTools.Alignment
import ImgTools.Region
import ImgTools.Segments
import ImgTools.Lz77
import ImgTools.HashChain
import ImgTools.Lz4Format
import ImgTools.Lz4Decoder
import ImgTools.Lz4DecoderTurn
import ImgTools.Lz4DecoderCorrect
import ImgTools.Lz4DecoderWrap
import ImgTools.Lz4DecoderWrapSafe
import ImgTools.Lz4Encoder
import ImgTools.Lz4Search
import ImgTools.Lz4EncoderTurn
import ImgTools.Lz4Lazy
import ImgTools.Lz4Chains
import ImgTools.Lz4RoundTrip
import ImgTools.Lz4Strict
import ImgTools.Lz4Size
import ImgTools.Lz4Capacity
import ImgTools.Lz4MaxSize
import ImgTools.Lz4Window
import ImgTools.Binary
import ImgTools.BootHeader
import ImgTools.BootHeaderPrefix
import ImgTools.BootHeaderFormat
import ImgTools.BootHeaderExact
import ImgTools.BootLayout
import ImgTools.BootLayoutFront
import ImgTools.BootLayoutLegacy
import ImgTools.BootLayoutModern
import ImgTools.Steady
import ImgTools.BootLayoutSound
import ImgTools.VendorLayoutSound
import ImgTools.VendorLayout
import ImgTools.BootPlacing
import ImgTools.BootImage
import ImgTools.VendorImage
import ImgTools.Reading
import ImgTools.ByteSource
import ImgTools.Related
import ImgTools.Similar
import ImgTools.Access
import ImgTools.Dialogue
import ImgTools.FdSource
import ImgTools.SubSource
import ImgTools.Zip
import ImgTools.ZipSimilar
import ImgTools.ZipDialogue
import ImgTools.ZipFaults
import ImgTools.Windows
import ImgTools.ZipWalk
import ImgTools.ZipAllocation
import ImgTools.ZipFormat
import ImgTools.ZipEnd
import ImgTools.ZipExtra
import ImgTools.ZipArchive
import ImgTools.ZipRoundTrip
import ImgTools.ZipAbi
import ImgTools.Inspect
import ImgTools.InspectPrefix
import ImgTools.InspectOrder
import ImgTools.ShiftRegister
import ImgTools.Bursts
import ImgTools.Crc32
import ImgTools.RegisterPeriod
import ImgTools.Crc32Laws
import ImgTools.Zip64Decode
import ImgTools.Zip64Exact
import ImgTools.ZipTrace
import ImgTools.ZipTiles
import ImgTools.ZipAccess
import ImgTools.ZipReads
import ImgTools.ZipExtents
import ImgTools.ZipSound
import ImgTools.Expanders
import ImgTools.Text
import ImgTools.Kotlin
import ImgTools.UriByteSource
import ImgTools.ListZip
import ImgTools.MainActivity
import ImgTools.Jobs
import ImgTools.ActivityRuns
import ImgTools.Reports
import ImgTools.ImageReports
import ImgTools.ZipTruncated
import ImgTools.BootTruncated
import ImgTools.BinaryAccess
import ImgTools.XzRoundTrip
import ImgTools.Extraction
import ImgTools.Lz4Stream
