import Eamrp.Model.Receive
import Eamrp.Lib.Exec
import Eamrp.Lib.Runs
import Eamrp.Abs.Step
import Eamrp.Abs.Entry
import Eamrp.Net.Destination
import Eamrp.Net.Loop
import Eamrp.Agent.PathList
import Eamrp.Agent.Discovery
import Eamrp.Net.Disjoint
import Eamrp.Net.Law
import Eamrp.Net.Answers
import Eamrp.Net.Ttl
import Eamrp.Agent.Spread
import Eamrp.Agent.Flood
import Eamrp.Agent.Lifetime
import Eamrp.Agent.Buffer
import Eamrp.Agent.LinkFailure
import Eamrp.Agent.RouteError
import Eamrp.Agent.Expiry
import Eamrp.Agent.NeighborLoss
import Eamrp.Model.Network
import Eamrp.Agent.Conservation
import Eamrp.Agent.HeadPurge
import Eamrp.Report.Delay
import Eamrp.Net.Advance
import Eamrp.Agent.Hops
import Eamrp.Agent.Search
import Eamrp.Net.Requests
import Eamrp.Net.Prolong
import Eamrp.Agent.Custody
import Eamrp.Agent.Demand
import Eamrp.Agent.Neighbors
import Eamrp.Agent.Quest
import Eamrp.Agent.Upkeep
import Eamrp.Net.Quest
