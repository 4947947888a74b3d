import UBoot.Lib.CString
import UBoot.Env.Layout
import UBoot.LibGeneric.Crc32
import UBoot.LibGeneric.Vsprintf
import UBoot.Env.CrcCoherence
import UBoot.Env.EnvFlashRedund
import UBoot.Env.PowerFailAtomic
import UBoot.Env.SaveHistory
import UBoot.Env.StoreRefinement
import UBoot.Httpd.Reject
import UBoot.Httpd.HwidGate
import UBoot.Httpd.StagingBounds
import UBoot.Net.Tftp
import UBoot.Net.TftpServer
import UBoot.Net.TftpTransfer
import UBoot.Net.TftpWrap
import UBoot.Tools.FwEnv
import UBoot.Tools.FwEnvFlash
import UBoot.Common.BootmBounds
import UBoot.Env.EnvNand
import UBoot.Net.UdpRoundTrip
import UBoot.Httpd.ReceivePath
import UBoot.Httpd.FrameIntegrity
import UBoot.Common.RunCommand
import UBoot.Common.ParseLine
import UBoot.Common.ProcessMacros
import UBoot.Common.Readline
import UBoot.Common.Separators
import UBoot.Env.BootCommand
import UBoot.Net.DhcpOptions
import UBoot.Common.SRecordRoundTrip
import UBoot.Net.NfsTransfer
import UBoot.Common.KermitTransfer
import UBoot.Common.MtdpartsRoundTrip
import UBoot.Common.BackBank
import UBoot.Env.EnvEeprom
import UBoot.Env.Getenv
import UBoot.Fs.Jffs2ReadInode
import UBoot.Net.ArpWait
import UBoot.Net.ArpReply
import UBoot.Httpd.Transmit
import UBoot.Httpd.UipArp
import UBoot.Httpd.UninitLocals
import UBoot.Httpd.ResponseStream
import UBoot.Common.CurrentPartition
import UBoot.Fs.Fat
import UBoot.Fs.FatContents
import UBoot.Httpd.SegmentHandling
import UBoot.Httpd.UploadDelivery
import UBoot.Common.FindCmd
import UBoot.Net.VendorOptions
import UBoot.Common.SRecordSafety
import UBoot.Common.AbbrevSpec
import UBoot.LibMips.CommandLine
import UBoot.LibMips.ArgumentTable
import UBoot.Board.Ar9100Pflash
import UBoot.Common.FlashWrite
import UBoot.Common.SectorRanges
import UBoot.Common.AutoComplete
import UBoot.Lib.StringTable
import UBoot.Common.FtBuild
import UBoot.Common.FtEncoding
import UBoot.Common.FtWithin
import UBoot.Common.FtBlob
import UBoot.Common.FtMerge
import UBoot.Common.FtSpace
import UBoot.Common.FtBuffer
import UBoot.Common.FtGetProp
import UBoot.Common.FtTree
import UBoot.Net.NfsPath
import UBoot.Net.NfsSymlink
import UBoot.Net.NfsBounds
import UBoot.Net.Cdp
import UBoot.LibGeneric.Sprintf
import UBoot.Net.IpAddress
import UBoot.Common.PartitionLists
import UBoot.Lib.WriteLog
import UBoot.Common.GenerateMtdparts
import UBoot.Common.IdParse
import UBoot.Common.FindDevAndPart
import UBoot.Common.MtdpartsAdd
import UBoot.Common.ParseMtdids
import UBoot.Common.CircBuf
import UBoot.Common.Memsize
import UBoot.Fs.Jffs2Dirents
import UBoot.Fs.Jffs2Path
import UBoot.Lib.Cycle
import UBoot.Fs.Jffs2Scan
import UBoot.Lib.Align
import UBoot.Fs.NandCache
import UBoot.Fs.FatCache
import UBoot.Lib.TreeWalk
import UBoot.Disk.PartDos
import UBoot.Disk.PartDosListing
import UBoot.Disk.PartDosWalk
import UBoot.Lib.Loop
import UBoot.Lib.StateValue
import UBoot.Fs.FatLookup
import UBoot.Fs.FatLookupValue
import UBoot.Fs.FatLookupNames
import UBoot.Fs.FatLookupEnds
import UBoot.Httpd.DataPhase
import UBoot.Lib.Patch
import UBoot.Drivers.Netconsole
import UBoot.Drivers.NetconsolePort
import UBoot.Common.CmdItest
import UBoot.Lib.Calendar
import UBoot.Rtc.Date
import UBoot.Common.CmdDate
import UBoot.Common.CmdLog
import UBoot.Common.Lists
import UBoot.Lib.RangeCoder
import UBoot.Tools.RangeEncoder
import UBoot.Tools.LzmaEncoder
import UBoot.LibGeneric.LzmaDecode
import UBoot.LibGeneric.LzmaSafety
import UBoot.LibGeneric.LzmaCoding
import UBoot.LibGeneric.LzmaSymbols
import UBoot.LibGeneric.LzmaRoundTrip
import UBoot.Common.BootmBurst
import UBoot.Common.Crc16
import UBoot.Common.Crc16Burst
import UBoot.Common.KernelImage
import UBoot.Common.XyzModemIntact
