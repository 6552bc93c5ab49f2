import HandsomeMod.Spec.Jffs2Fits
import HandsomeMod.Spec.Jffs2Scan
import HandsomeMod.Spec.MtdOffset
import HandsomeMod.Spec.MapcalcValidation
import HandsomeMod.Spec.EadChannel
import HandsomeMod.Spec.NvramRoundTrip
import HandsomeMod.Spec.Rtl8366Coherent
import HandsomeMod.Spec.Ag71xxTxRun
import HandsomeMod.Spec.Ag71xxRxRun
import HandsomeMod.Spec.Ag71xxMacFits
import HandsomeMod.Spec.Ar8216Isolation
import HandsomeMod.Spec.TffsNandLookup
import HandsomeMod.Spec.PtgenGpt
import HandsomeMod.Spec.PtgenMbrDisjoint
import HandsomeMod.Spec.OtrxAgree
import HandsomeMod.Spec.SafeloaderRoundTrip
import HandsomeMod.Spec.Rtl83xxIsolation
import HandsomeMod.Spec.Rtl83xxFdbLost
import HandsomeMod.Spec.Rtl83xxVlanLast
import HandsomeMod.Spec.Rtl83xxLagDisjoint
import HandsomeMod.Spec.Rtl839xNotifyOnce
import HandsomeMod.Spec.Rtl838xRxRun
import HandsomeMod.Spec.Ar8327Tagging
import HandsomeMod.Spec.SwconfigRegisterOnce
import HandsomeMod.Spec.SwconfigListOwned
import HandsomeMod.Spec.Bcm4908imgCrc
import HandsomeMod.Spec.Bcm4908imgBootfsEnds
import HandsomeMod.Spec.Bcm4908imgBootfsMv
import HandsomeMod.Spec.SeamaAgree
import HandsomeMod.Spec.MtdsplitReal
import HandsomeMod.Spec.GpioButtonDebounce
import HandsomeMod.Spec.Pc1RoundTrip
import HandsomeMod.Spec.Padjffs2Marks
import HandsomeMod.Spec.SwlibPortsGrammar
import HandsomeMod.Spec.Ag71xxTxCover
import HandsomeMod.Spec.SixrdcalcPrefix
import HandsomeMod.Spec.IpcalcRange
import HandsomeMod.Spec.OseamaReports
import HandsomeMod.Spec.JbootConfigUnsafe
import HandsomeMod.Spec.Ar8216ArlOnce
import HandsomeMod.Spec.TrxConsistent
import HandsomeMod.Spec.RbSoftconfigClean
import HandsomeMod.Spec.RbHardconfigTags
import HandsomeMod.Spec.KconfigReload
import HandsomeMod.Spec.SafeloaderSplit
import HandsomeMod.Spec.TffsNandScan
import HandsomeMod.Spec.TffsReadInside
import HandsomeMod.Spec.FritzCalPortions
import HandsomeMod.Spec.MtdFixAuth
import HandsomeMod.Spec.MtdImagetagFix
import HandsomeMod.Spec.MtdResetbcLog
import HandsomeMod.Spec.BcmWfiFind
import HandsomeMod.ForStd.Fuel
import HandsomeMod.Spec.BcmWfiBounds
import HandsomeMod.Spec.BcmWfiSplitTable
import HandsomeMod.Spec.Rtl83xxVlanFilterLast
import HandsomeMod.Spec.Rtl83xxMirrorGroups
import HandsomeMod.Spec.Rtl8366Pvid
import HandsomeMod.Spec.EadCryptDelivery
import HandsomeMod.Spec.EadBounds
import HandsomeMod.Spec.NvramRefines
import HandsomeMod.Spec.NvramSetAtomic
import HandsomeMod.Spec.NvramOpenInside
import HandsomeMod.Spec.MtdFisRanges
import HandsomeMod.Spec.MtdTrxOnce
import HandsomeMod.Spec.RouterbootFind
import HandsomeMod.Spec.BuffaloRoundTrip
import HandsomeMod.Spec.NandEccCorrects
import HandsomeMod.Spec.IwcapDump
import HandsomeMod.Spec.IwcapOptions
import HandsomeMod.Spec.MetadataCondition
import HandsomeMod.Spec.EadChecksum
import HandsomeMod.Spec.KconfigAlgebra
import HandsomeMod.Spec.VersionTags
import HandsomeMod.Spec.MetadataUsers
import HandsomeMod.Spec.KernelOverrides
import HandsomeMod.Spec.PackageOrder
