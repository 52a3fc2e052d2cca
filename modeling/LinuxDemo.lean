import LinuxDemo.Lib.Lts
import LinuxDemo.Lib.Sync
import LinuxDemo.Thread.Semaphore
import LinuxDemo.Thread.SemaphoreMain
import LinuxDemo.Thread.Cond
import LinuxDemo.Lib.Buffer
import LinuxDemo.Socket.ReadLine
import LinuxDemo.Socket.TcpServer
import LinuxDemo.Socket.TcpEcho
import LinuxDemo.Socket.UnixDatagram
import LinuxDemo.Lib.Threads
import LinuxDemo.Process.MapSharedMemory
import LinuxDemo.Process.SharedMemory
import LinuxDemo.Process.UnnamedSemaphore
import LinuxDemo.Process.SysvSemaphore
import LinuxDemo.Process.SysvSemaphoreUndo
import LinuxDemo.Lib.Lock
import LinuxDemo.Thread.LockedCounter
import LinuxDemo.Timer.PosixTimer
import LinuxDemo.Socket.TcpServerDescriptors
import LinuxDemo.Socket.UdpEcho
import LinuxDemo.Socket.UnixStream
import LinuxDemo.Memory.FileContext
import LinuxDemo.Lib.CInt
import LinuxDemo.Lib.CString
import LinuxDemo.Io.FcntlLock
import LinuxDemo.Io.Flock
import LinuxDemo.Io.BigFile
import LinuxDemo.Time.Timespec
import LinuxDemo.Time.Sleep
import LinuxDemo.Io.Inotify
import LinuxDemo.Time.SleepRestart
import LinuxDemo.Socket.HttpClient
import LinuxDemo.Io.EventLoops
import LinuxDemo.Process.SysvTryWait
import LinuxDemo.Socket.TcpServerAddresses
import LinuxDemo.Time.Ticks
import LinuxDemo.Timer.LinuxTimer
import LinuxDemo.Process.UnnamedSemaphoreCount
import LinuxDemo.Lib.Names
import LinuxDemo.Process.SysvSharedMemory
import LinuxDemo.Lib.FileLock
import LinuxDemo.Io.FcntlProcesses
import LinuxDemo.Io.FlockProcesses
import LinuxDemo.Lib.Fifo
import LinuxDemo.Io.Fifo
import LinuxDemo.Process.NamedSemaphore
import LinuxDemo.Process.MessageQueue
import LinuxDemo.Thread.Cancel
import LinuxDemo.Lib.Walk
import LinuxDemo.Directory.FileTreeWalk
import LinuxDemo.Lib.Calendar
import LinuxDemo.Lib.Strftime
import LinuxDemo.Time.RealTime
import LinuxDemo.Socket.TcpEchoProgress
import LinuxDemo.Lib.OpenFile
import LinuxDemo.Io.Redirect
import LinuxDemo.Io.EpollEtRead
import LinuxDemo.Io.Popen
import LinuxDemo.Memory.MmapFile
import LinuxDemo.Process.UnnamedSemaphoreObjects
