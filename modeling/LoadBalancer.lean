import LoadBalancer.Lib.Transition
import LoadBalancer.Lib.Observation
import LoadBalancer.Lib.Except
import LoadBalancer.Lib.Assoc
import LoadBalancer.Lib.MutableHeap
import LoadBalancer.Lib.SiftHeap
import LoadBalancer.Lib.OrderedMap
import LoadBalancer.Lib.CyclicOrder
import LoadBalancer.Lib.Rotation
import LoadBalancer.Lib.Text
import LoadBalancer.Lib.Pattern
import LoadBalancer.Lib.ListSet
import LoadBalancer.Lib.Ledger
import LoadBalancer.Lib.Failover
import LoadBalancer.Lib.CriticalSection
import LoadBalancer.Lib.Mutex
import LoadBalancer.Platform
import LoadBalancer.Yaml
import LoadBalancer.Url
import LoadBalancer.Url.Split
import LoadBalancer.Url.Language
import LoadBalancer.Url.Assembly
import LoadBalancer.Url.Port
import LoadBalancer.Backend
import LoadBalancer.Reference
import LoadBalancer.Backend.Text
import LoadBalancer.Selectors.Basic
import LoadBalancer.Selectors.RoundRobin
import LoadBalancer.Selectors.IpHash
import LoadBalancer.Selectors.WeightedRoundRobin
import LoadBalancer.Selectors.ConsistentHash
import LoadBalancer.Selectors.HeapPool
import LoadBalancer.Selectors.HeapEntries
import LoadBalancer.Selectors.LeastConnections
import LoadBalancer.Selectors.LeastResponseTime
import LoadBalancer.Selectors.Selector
import LoadBalancer.Selectors.ConfiguredPort
import LoadBalancer.Selectors.Exclusion
import LoadBalancer.Selectors.IpHashIndex
import LoadBalancer.Selectors.RoundRobinOrder
import LoadBalancer.Selectors.WeightedCycle
import LoadBalancer.Selectors.WeightedPass
import LoadBalancer.Selectors.HashRing
import LoadBalancer.Selectors.RingLabels
import LoadBalancer.Selectors.RingReplicas
import LoadBalancer.Selectors.RingExhaustion
import LoadBalancer.Selectors.HandleMap
import LoadBalancer.Selectors.LeastCounter
import LoadBalancer.Selectors.LeastAverage
import LoadBalancer.Selectors.HeapContract
import LoadBalancer.Session.HttpSession
import LoadBalancer.Session.Message
import LoadBalancer.Session.Relay
import LoadBalancer.Session.Notifications
import LoadBalancer.Session.Exchange
import LoadBalancer.Connector.StateNotifier
import LoadBalancer.Selectors.Locked
import LoadBalancer.Connector.System
import LoadBalancer.Connector.LateExclusion
import LoadBalancer.Connector.Failover
import LoadBalancer.Connector.Accounting
import LoadBalancer.Connector.Leaks
import LoadBalancer.Connector.Counters
import LoadBalancer.Connector.LeastLoaded
import LoadBalancer.Connector.Notifications
import LoadBalancer.Connector.Uses
import LoadBalancer.Connector.Evenness
import LoadBalancer.Connector.Refusals
import LoadBalancer.Connector.WeightedShare
import LoadBalancer.Connector.Affinity
import LoadBalancer.Connector.ResponseTimes
import LoadBalancer.Connector.Locked
import LoadBalancer.Acceptor
import LoadBalancer.Application
import LoadBalancer.Application.Threads
import LoadBalancer.Application.Shutdown
import LoadBalancer.Application.Listening
import LoadBalancer.Application.Startup
