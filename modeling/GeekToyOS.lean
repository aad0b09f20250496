import GeekToyOS.Arch.BootTables
import GeekToyOS.Arch.Descriptors
import GeekToyOS.Arch.I386KmapRuns
import GeekToyOS.Arch.I386Paging
import GeekToyOS.Arch.I386Region
import GeekToyOS.Arch.I386Trap
import GeekToyOS.Arch.IrqPath
import GeekToyOS.Arch.Kmap
import GeekToyOS.Arch.Lapic
import GeekToyOS.Arch.Madt
import GeekToyOS.Arch.PageMapping
import GeekToyOS.Arch.PageOwnership
import GeekToyOS.Arch.Rtc
import GeekToyOS.Arch.SmpBoot
import GeekToyOS.Arch.SmpDirectMap
import GeekToyOS.Arch.SmpLowMapping
import GeekToyOS.Arch.SoftWalk
import GeekToyOS.Arch.Trap
import GeekToyOS.Data.Bits
import GeekToyOS.Data.Chain
import GeekToyOS.Data.Dyadic
import GeekToyOS.Data.Trace
import GeekToyOS.Drivers.Acpi
import GeekToyOS.Drivers.Color
import GeekToyOS.Drivers.Glyph
import GeekToyOS.Drivers.Psf
import GeekToyOS.Drivers.Serial
import GeekToyOS.Kernel.BlockAlloc
import GeekToyOS.Kernel.BootAlloc
import GeekToyOS.Kernel.BuddyBoot
import GeekToyOS.Kernel.BuddyBounds
import GeekToyOS.Kernel.BuddyCanonical
import GeekToyOS.Kernel.BuddyRoundTrip
import GeekToyOS.Kernel.BumpPages
import GeekToyOS.Kernel.Clock
import GeekToyOS.Kernel.Console
import GeekToyOS.Kernel.Klog
import GeekToyOS.Kernel.KlogSmp
import GeekToyOS.Kernel.KmallocRuns
import GeekToyOS.Kernel.KmallocSizes
import GeekToyOS.Kernel.MemoryErrors
import GeekToyOS.Kernel.MemoryRuns
import GeekToyOS.Kernel.Multiboot
import GeekToyOS.Kernel.Preempt
import GeekToyOS.Lib.BitmapRange
import GeekToyOS.Lib.DivMod
import GeekToyOS.Lib.FormatScan
import GeekToyOS.Lib.ListRefinement
import GeekToyOS.Lib.Printfmt
import GeekToyOS.Lib.Snprintf
import GeekToyOS.Lib.Strcat
import GeekToyOS.Lib.Strftime
import GeekToyOS.Lib.String
import GeekToyOS.Lib.StringDirective
import GeekToyOS.Lib.Time
