import Utu.Stackish.Termination
import Utu.Stackish.Canonical
import Utu.Protocol.Signature
import Utu.Protocol.Initiator
import Utu.Client.Connect
import Utu.Hub.Served
import Utu.Hub.Order
import Utu.Hub.Closing
import Utu.Hub.Lifetime
import Utu.Hub.Tracking
import Utu.Hub.RouteMap
import Utu.Hub.Delivery
import Utu.Hub.MemberMap
import Utu.Hub.Serving
import Utu.Hub.Broadcast
import Utu.Hub.Progress
import Utu.Hub.HeapRuns
import Utu.Hub.QueueRuns
import Utu.Stackish.Release
import Utu.Stackish.Inverse
import Utu.Stackish.Links
import Utu.Protocol.Sending
import Utu.Protocol.Hostile
import Utu.Protocol.Agreement
import Utu.Protocol.Tampering
import Utu.Client.Relay
import Utu.Client.Transport
import Utu.Client.Socket
import Utu.Ruby.Canonical
