import Blackmount.Proc.Sched
import Blackmount.Proc.Fair
import Blackmount.Proc.Reap
import Blackmount.Mkfs.Agree
import Blackmount.Vfs.Isolation
import Blackmount.Vfs.Confidential
import Blackmount.Vfs.History
import Blackmount.Mem.HeapSound
import Blackmount.Libc.MallocSound
import Blackmount.Net.Datagram
import Blackmount.Net.Pairing
import Blackmount.Net.Wakeups
import Blackmount.Proc.Launch
import Blackmount.Ext2.Sizes
import Blackmount.Ext2.Geometry
import Blackmount.Usb.Isolation
import Blackmount.Ext2.PathWalk
import Blackmount.Ext2.Unmount
import Blackmount.Vfs.Enumeration
import Blackmount.Vfs.Mounts
import Blackmount.Mem.Mmap
import Blackmount.Loaders.ElfImage
import Blackmount.Mem.ImagePlacement
import Blackmount.Mem.Dma
import Blackmount.Net.Names
import Blackmount.User.SaveFailure
import Blackmount.Block.Gpt
import Blackmount.Disk.Ata
import Blackmount.Fat.Safe
import Blackmount.Usb.HidKeyboard
import Blackmount.Console.Delivery
import Blackmount.Misys.Order
import Blackmount.Packs.Damaged
import Blackmount.Packs.Leftovers
import Blackmount.Ramdisk.Meaning
import Blackmount.Usb.Descriptors
import Blackmount.Shell.Env
import Blackmount.Fat.Codec
import Blackmount.Ext2.Addresses
import Blackmount.Ext2.Leaves
import Blackmount.Ext2.Allocators
