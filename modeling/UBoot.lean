import UBoot.Theorems.Getenv
import UBoot.Theorems.Tftp
import UBoot.Theorems.Defrag
import UBoot.Theorems.Nvram
import UBoot.Theorems.Bootm
import UBoot.Theorems.MultiRoundTrip
import UBoot.Theorems.MtdCurrent
import UBoot.Theorems.MtdpartsRoundTrip
import UBoot.Theorems.NfsInside
import UBoot.Theorems.NfsDownload
import UBoot.Theorems.LinkLocalClaim
import UBoot.Theorems.MkEnvRoundTrip
import UBoot.Theorems.SRecordRoundTrip
import UBoot.Theorems.KermitIntegrity
import UBoot.Theorems.NandSpread
import UBoot.Theorems.FitSealed
import UBoot.Theorems.FatInside
import UBoot.Theorems.FatRead
import UBoot.Theorems.LmbAlloc
import UBoot.Theorems.FlashWrite
import UBoot.Theorems.NetInside
import UBoot.Theorems.BlockMap
import UBoot.Theorems.Journal
import UBoot.Theorems.JournalEnds
import UBoot.Theorems.AutoComplete
import UBoot.Theorems.NandPartition
import UBoot.Theorems.HistoryRing
import UBoot.Theorems.CommandList
import UBoot.Theorems.FlashSave
import UBoot.Theorems.LineEditor
import UBoot.Theorems.FwSetenv
import UBoot.Theorems.ImportInside
import UBoot.Theorems.SelectiveImport
import UBoot.Theorems.MacroExpansion
import UBoot.Theorems.NvramFound
import UBoot.Theorems.MtdBuffers
import UBoot.Theorems.DnsAnswer
import UBoot.Theorems.DhcpOptions
import UBoot.Theorems.PartDos
import UBoot.Theorems.GptRead
import UBoot.Theorems.SRecordSafe
import UBoot.Theorems.HwconfigGrammar
import UBoot.Theorems.CommandSplit
import UBoot.Theorems.VfatRoundTrip
import UBoot.Theorems.PxeInclude
import UBoot.Theorems.PxeMenu
import UBoot.Theorems.Pci
import UBoot.Theorems.RamSize
import UBoot.Theorems.KeyMatrix
import UBoot.Theorems.Ext4Dev
import UBoot.Theorems.Fdtdec
import UBoot.Theorems.UpdateFlash
import UBoot.Theorems.GunzipInside
import UBoot.Theorems.EthRing
import UBoot.Theorems.Iomux
import UBoot.Theorems.Input
import UBoot.Theorems.Ext4Read
import UBoot.Theorems.IprocNand
import UBoot.Theorems.Ext4Inodes
import UBoot.Theorems.Ext4Blocks
import UBoot.Theorems.Ext4Dir
import UBoot.Theorems.CircBuf
import UBoot.Theorems.NetHeaders
import UBoot.Theorems.HashProbe
