import LinuxLearning.Lib.Transition
import LinuxLearning.Webserver.Body
import LinuxLearning.Webserver.Descriptors
import LinuxLearning.Webserver.Mappings
import LinuxLearning.Webserver.Indices
import LinuxLearning.Webserver.Phases
import LinuxLearning.Webserver.UserCount
import LinuxLearning.Webserver.Progress
import LinuxLearning.Webserver.HeadEnd
import LinuxLearning.Webserver.Oversize
import LinuxLearning.Webserver.DocRoot
import LinuxLearning.Webserver.KeepAlive
import LinuxLearning.Webserver.ThreadPool
import LinuxLearning.Webserver.Listener
import LinuxLearning.Webserver.Grammar
import LinuxLearning.Webserver.HeaderOrder
import LinuxLearning.Webserver.Survival
import LinuxLearning.Webserver.ServedFile
import LinuxLearning.Webserver.QueueLimit
import LinuxLearning.Webserver.PoolLifetime
import LinuxLearning.Chapter5.ThreadPool
import LinuxLearning.Webserver.Garbage
import LinuxLearning.Webserver.WriteBuffer
import LinuxLearning.Chapter5.Agreement
import LinuxLearning.Chapter5.ParseContent
import LinuxLearning.Chapter5.ProcessPool
import LinuxLearning.Chapter5.Signals
import LinuxLearning.Chapter5.Reaping
import LinuxLearning.Chapter5.ProcessFork
import LinuxLearning.Chapter3.Semaphore
import LinuxLearning.Chapter3.PthreadCond
import LinuxLearning.Chapter3.SellTickets
import LinuxLearning.Webserver.Scanner
import LinuxLearning.Chapter1.Sorting
import LinuxLearning.Chapter1.CopyFile
import LinuxLearning.Chapter2.Chat
import LinuxLearning.Chapter4.Revents
import LinuxLearning.Chapter4.TcpServer
import LinuxLearning.Chapter4.SigChild
import LinuxLearning.Chapter4.Epoll
import LinuxLearning.Webserver.PoolDrain
import LinuxLearning.Chapter3.ProducerConsumer
import LinuxLearning.Chapter3.BufferStack
import LinuxLearning.Chapter3.Rwlock
import LinuxLearning.Chapter5.Handoff
import LinuxLearning.Webserver.Settling
import LinuxLearning.Webserver.Delivery
import LinuxLearning.Webserver.Requests
import LinuxLearning.Webserver.Answered
import LinuxLearning.Webserver.Accesses
import LinuxLearning.Webserver.Atomicity
import LinuxLearning.Chapter4.Multiprocess
import LinuxLearning.Chapter4.Select
import LinuxLearning.Chapter2.Pipe
import LinuxLearning.Chapter2.SigChild
import LinuxLearning.Chapter2.MmapCopy
import LinuxLearning.Chapter4.Udp
import LinuxLearning.Chapter2.SigSet
import LinuxLearning.Chapter1.LsL
