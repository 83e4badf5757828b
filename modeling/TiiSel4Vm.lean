import TiiSel4Vm.Lib.WrapCounter
import TiiSel4Vm.Lib.Transition
import TiiSel4Vm.Queue.Machine
import TiiSel4Vm.Queue.History
import TiiSel4Vm.Queue.Markers
import TiiSel4Vm.Queue.Order
import TiiSel4Vm.Queue.EventQueue
import TiiSel4Vm.Queue.Solo
import TiiSel4Vm.Lib.Ownership
import TiiSel4Vm.Queue.Sequential
import TiiSel4Vm.Rpc.Bitmap
import TiiSel4Vm.Rpc.Lend
import TiiSel4Vm.Rpc.Circulation
import TiiSel4Vm.Rpc.Fields
import TiiSel4Vm.Rpc.Channel
import TiiSel4Vm.Rpc.Request
import TiiSel4Vm.Vmm.Doorbell
import TiiSel4Vm.Vmm.IoProxy
import TiiSel4Vm.Vmm.IoProxyInvariant
import TiiSel4Vm.Vmm.IoProxySteps
import TiiSel4Vm.Vmm.IoProxyRuns
import TiiSel4Vm.Lib.UpToFirst
import TiiSel4Vm.Fdt.Generate
import TiiSel4Vm.Vmm.Devices
import TiiSel4Vm.Vmm.Init
import TiiSel4Vm.Vmm.SharedIrqLine
import TiiSel4Vm.Vmm.PciIntx
import TiiSel4Vm.Vmm.EmulatedDevices
import TiiSel4Vm.Vmm.IoreqStart
import TiiSel4Vm.Lib.ForEach
import TiiSel4Vm.Vmm.RpcRun
import TiiSel4Vm.Vmm.HandleMmio
import TiiSel4Vm.Vmm.NativeSlots
import TiiSel4Vm.Vmm.IrqReservations
import TiiSel4Vm.Vmm.EmudevErrors
import TiiSel4Vm.Vmm.PciConfig
import TiiSel4Vm.Vmm.Gicv2m
import TiiSel4Vm.Queue.Predicates
import TiiSel4Vm.Rpc.Pending
import TiiSel4Vm.Rpc.Reboot
import TiiSel4Vm.Vmm.MmioMessages
import TiiSel4Vm.Lib.Outline
import TiiSel4Vm.Fdt.Libfdt
import TiiSel4Vm.Fdt.ReservedMemory
import TiiSel4Vm.Fdt.LongNames
import TiiSel4Vm.Lib.Interning
import TiiSel4Vm.Vmm.Trace
import TiiSel4Vm.Lib.MaskedIndex
import TiiSel4Vm.Queue.RingSize
import TiiSel4Vm.Lib.IndexSet
import TiiSel4Vm.Rpc.BitmapSet
import TiiSel4Vm.Queue.Places
import TiiSel4Vm.Queue.PointerQueue
import TiiSel4Vm.Lib.Exchange
import TiiSel4Vm.Rpc.Network
import TiiSel4Vm.Rpc.NetworkOwners
import TiiSel4Vm.Rpc.NetworkRuns
import TiiSel4Vm.Vmm.DeviceRequests
import TiiSel4Vm.Lib.Unwinding
import TiiSel4Vm.Vmm.Isolation
import TiiSel4Vm.Vmm.Startup
import TiiSel4Vm.Vmm.StartupRuns
import TiiSel4Vm.Fdt.PciNodes
import TiiSel4Vm.Fdt.GuestTree
import TiiSel4Vm.Rpc.Calls
import TiiSel4Vm.Lib.CommandLog
import TiiSel4Vm.Vmm.InterruptCommands
import TiiSel4Vm.Vmm.InterruptLevels
import TiiSel4Vm.Vmm.InterruptRuns
