import Ofpagent.Timer.Refine
import Ofpagent.Timer.Wakeup
import Ofpagent.Timer.Tick
import Ofpagent.Timer.Keys
import Ofpagent.Agent.Handshake
import Ofpagent.Agent.Events
import Ofpagent.Agent.PacketIn
import Ofpagent.Agent.Segmentation
import Ofpagent.Agent.Capacity
import Ofpagent.Agent.Mailbox
import Ofpagent.Agent.Planes
import Ofpagent.Agent.Keepalive
import Ofpagent.Ipc.Callers
import Ofpagent.Agent.Answer
import Ofpagent.Agent.Query
import Ofpagent.Agent.FlowMod
import Ofpagent.Agent.Wire
import Ofpagent.Agent.Replies
import Ofpagent.Util.Datagram
import Ofpagent.Timer.Elapsed
import Ofpagent.Agent.Filter
import Ofpagent.Util.Fields
import Ofpagent.Util.StrTok
import Ofpagent.Util.Md5Rounds
import Ofpagent.Util.Digest
import Ofpagent.Agent.Provenance
import Ofpagent.Agent.Sockets
import Ofpagent.Timer.Expiry
import Ofpagent.Agent.Exchange
import Ofpagent.Agent.Survival
import Ofpagent.Agent.Delivery
import Ofpagent.Ipc.Timeouts
import Ofpagent.Timer.Progress
