import Lwip.Lib.Serial
import Lwip.Lib.Run
import Lwip.Lib.Tiling
import Lwip.Lib.Reach
import Lwip.Lib.Bytes
import Lwip.Lib.Condition
import Lwip.Lib.Overlay
import Lwip.Lib.Slots
import Lwip.Lib.Delta
import Lwip.Lib.Links
import Lwip.Lib.LinkedLists
import Lwip.Lib.OnesComplement
import Lwip.Lib.Tlv
import Lwip.Lib.Ber
import Lwip.Arch
import Lwip.Tcp.Defs
import Lwip.Tcp.Output
import Lwip.Tcp.Ack
import Lwip.Tcp.Receive
import Lwip.Tcp.Process
import Lwip.Tcp.Rules
import Lwip.Tcp.Frame
import Lwip.Tcp.Untouched
import Lwip.Tcp.Ooseq
import Lwip.Tcp.InSeq
import Lwip.Tcp.Receiver
import Lwip.Tcp.Stream
import Lwip.Tcp.Window
import Lwip.Tcp.AnnWnd
import Lwip.Tcp.SendModel
import Lwip.Tcp.Sender
import Lwip.Tcp.SenderAck
import Lwip.Tcp.Connection
import Lwip.Tcp.SendQueue
import Lwip.Tcp.Closing
import Lwip.Tcp.Queued
import Lwip.Tcp.Refused
import Lwip.Tcp.Open
import Lwip.Tcp.Taken
import Lwip.Tcp.Events
import Lwip.Tcp.Counted
import Lwip.Tcp.CountedStep
import Lwip.Tcp.StayOpen
import Lwip.Tcp.ListStates
import Lwip.Tcp.Room
import Lwip.Tcp.InUse
import Lwip.Tcp.Fresh
import Lwip.Tcp.Shaking
import Lwip.Tcp.Backoff
import Lwip.Tcp.Congestion
import Lwip.Tcp.Rto
import Lwip.Tcp.Acceptance
import Lwip.Tcp.Progress
import Lwip.Tcp.Accounting
import Lwip.Tcp.AckOwed
import Lwip.Tcp.Content
import Lwip.Tcp.Accepting
import Lwip.Tcp.EndToEnd
import Lwip.Pcbs.Defs
import Lwip.Pcbs.Input
import Lwip.Pcbs.Table
import Lwip.Pcbs.Steps
import Lwip.Pcbs.Run
import Lwip.Pcbs.Apart
import Lwip.Pcbs.Demux
import Lwip.Pcbs.Victim
import Lwip.Pcbs.Sound
import Lwip.Pcbs.Unique
import Lwip.Tcp.KillPrio
import Lwip.Tcp.ParseOpt
import Lwip.Tcp.Enqueue
import Lwip.Tcp.Segments
import Lwip.Tcp.Splits
import Lwip.Tcp.SynSent
import Lwip.Tcp.Connect
import Lwip.Ip.Hdr
import Lwip.Ip.Reass
import Lwip.Ip.Chain
import Lwip.Ip.Evict
import Lwip.Ip.Step
import Lwip.Ip.Safety
import Lwip.Ip.Eviction
import Lwip.Ip.Ranges
import Lwip.Ip.Restore
import Lwip.Ip.Fragment
import Lwip.Ip.RoundTrip
import Lwip.Ip.FragLayout
import Lwip.Ip.FragInPlace
import Lwip.Pbuf.Heap
import Lwip.Pbuf.Count
import Lwip.Pbuf.Sharing
import Lwip.Pbuf.Lens
import Lwip.Pbuf.Packet
import Lwip.Pbuf.Realloc
import Lwip.Pbuf.Alloc
import Lwip.Pbuf.Program
import Lwip.Pbuf.Copy
import Lwip.Pbuf.CopyNew
import Lwip.Netif.Etharp
import Lwip.Netif.ArpTable
import Lwip.Netif.ArpRun
import Lwip.Netif.Snooping
import Lwip.Netif.ArpQueue
import Lwip.Netif.QueryFate
import Lwip.Netif.Loopback
import Lwip.Netif.Slip
import Lwip.Netif.SlipMemory
import Lwip.Ip.Igmp
import Lwip.Ip.GroupList
import Lwip.Ip.Membership
import Lwip.Ip.Timers
import Lwip.Ip.Reports
import Lwip.Ip.Chksum
import Lwip.Ip.ChksumPbuf
import Lwip.Ip.Forward
import Lwip.Ip.IcmpEcho
import Lwip.Ip.FirstHeader
import Lwip.Ip.IcmpError
import Lwip.Ip.Inet
import Lwip.Ip.Ntoa
import Lwip.Mem.Heap
import Lwip.Mem.Blocks
import Lwip.Mem.Layout
import Lwip.Mem.Malloc
import Lwip.Mem.Free
import Lwip.Mem.Program
import Lwip.Mem.Request
import Lwip.Binding.Wrap
import Lwip.Binding.Reader
import Lwip.Binding.Listener
import Lwip.Binding.Writer
import Lwip.Binding.Flow
import Lwip.Binding.Close
import Lwip.Binding.Served
import Lwip.Lib.Tickets
import Lwip.Lib.Queues
import Lwip.Lib.Octets
import Lwip.Sys.Timeouts
import Lwip.Udp.Bind
import Lwip.Udp.Demux
import Lwip.Udp.Datagram
import Lwip.Udp.Fragments
import Lwip.Dns.Message
import Lwip.Dns.Names
import Lwip.Dns.Resolver
import Lwip.Dns.Query
import Lwip.Dns.Bounds
import Lwip.Dns.Callbacks
import Lwip.Dns.Eviction
import Lwip.Dns.Cache
import Lwip.Dhcp.Options
import Lwip.Dhcp.Search
import Lwip.Dhcp.Client
import Lwip.Dhcp.Received
import Lwip.Dhcp.Waiting
import Lwip.Dhcp.Lease
import Lwip.Snmp.Walk
import Lwip.Snmp.Asn1
import Lwip.Snmp.Octets
import Lwip.Snmp.Reading
import Lwip.Snmp.RoundTrip
import Lwip.Snmp.Message
import Lwip.Snmp.Accepted
import Lwip.Snmp.Listed
import Lwip.Snmp.Compact
import Lwip.Snmp.Refused
import Lwip.Snmp.VarbindList
import Lwip.Snmp.Parsed
import Lwip.Snmp.Fields
import Lwip.Snmp.Response
import Lwip.Snmp.Bindings
import Lwip.Snmp.TwoPass
