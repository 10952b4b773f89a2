import Jers.Json.Responses
import Jers.Agent.Handover
import Jers.Server.Deferred
import Jers.Server.Permissions
import Jers.Server.Deletion
import Jers.Server.Journaled
import Jers.Server.Refusals
import Jers.Server.DefaultQueue
import Jers.Server.Holds
import Jers.Agent.Challenge
import Jers.Agent.ProxyRuns
import Jers.State.CommitMark
import Jers.Server.ResourceLimits
import Jers.Server.Dispatch
import Jers.Server.EndReports
import Jers.Comms.AgentLines
import Jers.Comms.ClientLines
import Jers.Api.GetJob
import Jers.Json.Numbers
import Jers.Api.Transfer
import Jers.Server.PassBound
import Jers.Json.Reservations
import Jers.Text.StaticBuffer
import Jers.Json.Rendering
import Jers.Server.ReadonlyMode
