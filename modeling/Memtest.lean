import Memtest.Badram.Coverage
import Memtest.Pmem.ReservedHole
import Memtest.Windows.Coverage
import Memtest.Windows.Numa
import Memtest.Tests.MovInvRngSpec
import Memtest.Tests.ModuloNSpec
import Memtest.Tests.BlockMoveSpec
import Memtest.Tests.VecPrsgEquiv
import Memtest.Tests.Lockstep
import Memtest.Tests.OwnAddrSpec
import Memtest.Main.Cpus
import Memtest.Errors.Attribution
import Memtest.Errors.Restart
import Memtest.Errors.Verdict
import Memtest.Main.Footprint
import Memtest.Windows.FirstWord
import Memtest.Main.Hybrid
import Memtest.Tests.SizingMaster
import Memtest.Tests.SizingPure
import Memtest.Smp.Discovery
import Memtest.Smp.CpuNumbers
import Memtest.Smp.SratSpec
import Memtest.Smp.Barrier
import Memtest.Pmem.HeapSpec
import Memtest.Main.SavedConfigSpec
import Memtest.Dongle.AuthSpec
import Memtest.Fat.CrashSafety
import Memtest.Fat.Saves
import Memtest.Fat.StaysInside
import Memtest.Windows.Narrow
import Memtest.Smbios.DmiBounds
import Memtest.Usb.EventRing
import Memtest.Usb.EnumerationSpec
import Memtest.Usb.KeyboardArming
import Memtest.Pmem.EfiMapSpec
import Memtest.Smp.NumaInverse
import Memtest.Badram.Order
import Memtest.Badram.Ranges
import Memtest.Smbios.DimmRanges
import Memtest.Main.LoadAddr
import Memtest.Windows.MapRegion
import Memtest.Windows.Aarch64PagingSpec
import Memtest.Errors.Summary
import Memtest.Tests.BusStressSpec
import Memtest.Fat.Partitions
import Memtest.Fat.ReadWhole
import Memtest.Smbios.MemoryGroups
import Memtest.Main.TestList
import Memtest.Main.CommandLine
import Memtest.Main.ReadValue
import Memtest.Screen.PopUpSpec
import Memtest.Tests.StuckLine
import Memtest.Tests.RowhammerSpec
import Memtest.Spd.Checksum
import Memtest.Pmem.MmioAlloc
import Memtest.Usb.KeyDelivery
import Memtest.Usb.BulkToggles
import Memtest.Usb.DescriptorWalk
import Memtest.Report.Numbers
import Memtest.Report.Bounded
import Memtest.Screen.TextFields
import Memtest.Pmem.BenchRegion
import Memtest.Main.EnteredText
import Memtest.Main.MenuEntries
import Memtest.Smbios.Strings
import Memtest.Boot.GopMode
import Memtest.Usb.InputContext
import Memtest.Smp.AcpiTables
import Memtest.Boot.RelocSpec
